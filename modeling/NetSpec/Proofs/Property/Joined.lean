import NetSpec.Proofs.Property.Levels

/-!
# Joining regions by their boxes

`Property.Joined` says what the properties of regions are: their boxes have different levels,
every region has its box among them, and the polytopes of a property are those of the regions
with the levels of its box, in the order of the regions. It holds of no regions, and adding a
region keeps it.
-/

namespace NetSpec

namespace Property

/-- Properties that regions are joined into, one for all regions with equal boxes. -/
structure Joined (regions : List (Region Float)) (properties : List (Property Float)) : Prop where
  proper : ∀ p ∈ properties, p.box.IsProper
  distinct : (properties.map (·.box.levels)).Nodup
  levels : ∀ levels, levels ∈ properties.map (·.box.levels) ↔ levels ∈ regions.map (·.box.levels)
  polytopes : ∀ p ∈ properties, p.polytopes =
    (regions.filter fun region => region.box.levels = p.box.levels).map (·.polytope)

/-- A region is added to the property of its box, or opens one behind the others. -/
theorem insert_cases {region : Region Float} (proper : region.box.IsProper)
    {properties : List (Property Float)} (each : ∀ p ∈ properties, p.box.IsProper) :
    (∃ before p after, properties = before ++ p :: after ∧ p.box.levels = region.box.levels ∧
      insert region properties =
        before ++ { p with polytopes := p.polytopes ++ [region.polytope] } :: after) ∨
    ((∀ p ∈ properties, p.box.levels ≠ region.box.levels) ∧
      insert region properties = properties ++ [⟨region.box, [region.polytope]⟩]) := by
  induction properties with
  | nil => exact .inr ⟨by simp, rfl⟩
  | cons p properties ih =>
    obtain ⟨first, others⟩ := List.forall_mem_cons.mp each
    rw [insert]
    split
    next same => exact .inl ⟨[], p, properties, rfl, (Box.beq_iff first proper).mp same, rfl⟩
    next differ =>
      rw [Box.beq_iff first proper] at differ
      rcases ih others with ⟨before, q, after, rfl, same, inserted⟩ | ⟨absent, inserted⟩
      · exact .inl ⟨p :: before, q, after, rfl, same, by rw [inserted]; rfl⟩
      · exact .inr ⟨List.forall_mem_cons.mpr ⟨differ, absent⟩, by rw [inserted]; rfl⟩

theorem joined_nil : Joined [] [] where
  proper := by simp
  distinct := .nil
  levels := by simp
  polytopes := by simp

namespace Joined

variable {regions : List (Region Float)} {properties before after : List (Property Float)}
  {region : Region Float}

/-- A region with another box leaves the polytopes of a property alone. -/
theorem polytopes_of_ne (joined : Joined regions properties) {p : Property Float}
    (member : p ∈ properties) (differ : p.box.levels ≠ region.box.levels) : p.polytopes =
      ((regions ++ [region]).filter fun region => region.box.levels = p.box.levels).map
        (·.polytope) := by
  simp [List.filter_append, Ne.symm differ, joined.polytopes p member]

/-- Properties stay joined when a region goes to the property of its box. -/
theorem extend {p : Property Float} (joined : Joined regions (before ++ p :: after))
    (same : p.box.levels = region.box.levels) :
    Joined (regions ++ [region])
      (before ++ { p with polytopes := p.polytopes ++ [region.polytope] } :: after) := by
  have listed : p ∈ before ++ p :: after := List.mem_append_right _ List.mem_cons_self
  have levels : (before ++ { p with polytopes := p.polytopes ++ [region.polytope] } :: after).map
      (·.box.levels) = (before ++ p :: after).map (·.box.levels) := by simp
  have distinct := joined.distinct
  rw [List.map_append, List.map_cons, List.nodup_append, List.nodup_cons] at distinct
  obtain ⟨_, ⟨apartAfter, _⟩, apartBefore⟩ := distinct
  refine ⟨?_, ?_, ?_, ?_⟩
  · have each := List.forall_mem_append.mp joined.proper
    exact List.forall_mem_append.mpr
      ⟨each.1, List.forall_mem_cons.mpr (List.forall_mem_cons.mp each.2)⟩
  · rw [levels]
    exact joined.distinct
  · intro l
    rw [levels, joined.levels, List.map_append, List.mem_append, List.map_singleton,
      List.mem_singleton]
    refine ⟨.inl, fun h => h.elim id fun here => ?_⟩
    rw [here, ← same, ← joined.levels]
    exact List.mem_map_of_mem listed
  · refine List.forall_mem_append.mpr ⟨fun q member => ?_, List.forall_mem_cons.mpr
      ⟨?_, fun q member => ?_⟩⟩
    · refine joined.polytopes_of_ne (List.mem_append_left _ member) ?_
      rw [← same]
      exact apartBefore _ (List.mem_map_of_mem member) _ List.mem_cons_self
    · simp [List.filter_append, same, joined.polytopes p listed]
    · refine joined.polytopes_of_ne
        (List.mem_append_right _ (List.mem_cons_of_mem _ member)) fun differ => ?_
      rw [same, ← differ] at apartAfter
      exact apartAfter (List.mem_map_of_mem member)

/-- Properties stay joined when a region with a new box opens one. -/
theorem concat (joined : Joined regions properties) (proper : region.box.IsProper)
    (absent : ∀ p ∈ properties, p.box.levels ≠ region.box.levels) :
    Joined (regions ++ [region]) (properties ++ [⟨region.box, [region.polytope]⟩]) := by
  have new : region.box.levels ∉ properties.map (·.box.levels) := by
    intro listed
    obtain ⟨p, member, same⟩ := List.mem_map.mp listed
    exact absent p member same
  have alone : (regions.filter fun other => other.box.levels = region.box.levels) = [] := by
    rw [List.filter_eq_nil_iff]
    intro other member same
    rw [joined.levels] at new
    exact new (decide_eq_true_eq.mp same ▸ List.mem_map_of_mem member)
  refine ⟨?_, ?_, ?_, ?_⟩
  · rw [List.forall_mem_append, List.forall_mem_singleton]
    exact ⟨joined.proper, proper⟩
  · rw [List.map_append, List.nodup_append]
    refine ⟨joined.distinct, List.nodup_singleton _, fun l listed l' last => ?_⟩
    rw [List.mem_singleton.mp last]
    intro same
    rw [same] at listed
    exact new listed
  · intro l
    rw [List.map_append, List.mem_append, joined.levels, List.map_append, List.mem_append]
    rfl
  · rw [List.forall_mem_append, List.forall_mem_singleton]
    refine ⟨fun p member => joined.polytopes_of_ne member (absent p member), ?_⟩
    simp [List.filter_append, alone]

/-- No two properties have equal boxes. -/
theorem pairwise_beq (joined : Joined regions properties) :
    properties.Pairwise fun p q => (p.box == q.box) = false := by
  have distinct := List.pairwise_map.mp joined.distinct
  refine distinct.imp_of_mem fun first second differ => ?_
  rw [← Bool.not_eq_true, Box.beq_iff (joined.proper _ first) (joined.proper _ second)]
  exact differ

/-- One more region keeps properties joined. -/
theorem insert (joined : Joined regions properties) (proper : region.box.IsProper) :
    Joined (regions ++ [region]) (insert region properties) := by
  rcases insert_cases proper joined.proper with
    ⟨before, p, after, rfl, same, inserted⟩ | ⟨absent, inserted⟩
  · rw [inserted]
    exact joined.extend same
  · rw [inserted]
    exact joined.concat proper absent

end Joined

/-- Regions are joined into their properties. -/
theorem joined_ofRegions {regions : List (Region Float)}
    (proper : ∀ region ∈ regions, region.box.IsProper) : Joined regions (ofRegions regions) := by
  induction regions using List.reverseRecOn with
  | nil => exact joined_nil
  | append_singleton regions last ih =>
    rw [List.forall_mem_append, List.forall_mem_singleton] at proper
    rw [ofRegions, List.foldl_concat]
    exact (ih proper.1).insert proper.2

end Property

end NetSpec
