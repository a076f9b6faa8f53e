import NetSpec.Proofs.Compiler.Runs
import NetSpec.Proofs.Property.Joined

/-!
# Properties group the regions of branches

The end of a script assembles the branches in order, and those that can hold have regions.
`Property.Grouped` says in terms of `==` what the properties made from them are: one for all
regions with equal boxes, in the order of the first of these, with their polytopes in order, so
that every region has its polytope in one property and in no other.

Equality of boxes is a test that a NaN would spoil. No end of a box is one, since a bound that is
a NaN is less than nothing.
-/

namespace NetSpec

/-- The end is a number that is not equal to itself. -/
def End.isNaN : End Float → Bool
  | number a => a.isNaN
  | bottom | top => false

theorem End.isProper_iff {e : End Float} : e.IsProper ↔ e.isNaN = false := by
  cases e with
  | number a => exact Iff.rfl
  | bottom | top => exact iff_of_true trivial rfl

/-- A box whose ends can be compared is equal to itself. -/
theorem Box.IsProper.beq_self {box : Box Float} (proper : box.IsProper) : (box == box) = true :=
  (Box.beq_iff proper proper).mpr rfl

namespace Property

/-- The position of the first region with a box. -/
def place (regions : List (Region Float)) (box : Box Float) : Nat :=
  regions.findIdx (·.box == box)

/-- The properties of regions, one for all regions with equal boxes. -/
structure Grouped (regions : List (Region Float)) (properties : List (Property Float)) : Prop where
  distinct : properties.Pairwise fun p q => (p.box == q.box) = false
  nonempty : ∀ p ∈ properties, p.polytopes ≠ []
  order : (properties.map fun p => place regions p.box).Pairwise (· < ·)
  polytopes : ∀ p ∈ properties,
    p.polytopes = (regions.filter (·.box == p.box)).map (·.polytope)
  count : (properties.map (·.polytopes.length)).sum = regions.length

/-- Adding a region adds one polytope. -/
theorem count_insert {α : Type} [Scalar α] (region : Region α) (properties : List (Property α)) :
    ((insert region properties).map (·.polytopes.length)).sum =
      (properties.map (·.polytopes.length)).sum + 1 := by
  induction properties with
  | nil => rfl
  | cons p properties ih =>
    rw [insert]
    split
    · simp only [List.map_cons, List.sum_cons, List.length_append, List.length_singleton]
      omega
    · simp only [List.map_cons, List.sum_cons, ih]
      omega

/-- There are as many polytopes as regions. -/
theorem count_ofRegions {α : Type} [Scalar α] (regions : List (Region α)) :
    ((ofRegions regions).map (·.polytopes.length)).sum = regions.length := by
  induction regions using List.reverseRecOn with
  | nil => rfl
  | append_singleton regions last ih =>
    rw [ofRegions, List.foldl_concat, List.length_append, ← ih]
    exact count_insert last _

/-- A box that a region has is found there with further regions behind. -/
theorem place_concat {regions : List (Region Float)} {box : Box Float}
    (found : place regions box < regions.length) (last : Region Float) :
    place (regions ++ [last]) box = place regions box :=
  List.findIdx_append.trans (if_pos found)

/-- A box that no region has comes behind them. -/
theorem place_concat_self {regions : List (Region Float)} {last : Region Float}
    (new : place regions last.box = regions.length) (proper : last.box.IsProper) :
    place (regions ++ [last]) last.box = regions.length := by
  refine (List.findIdx_append.trans (if_neg (Nat.not_lt.mpr new.ge))).trans ?_
  simp [List.findIdx_cons, proper.beq_self]

section Joined

variable {regions : List (Region Float)} {properties : List (Property Float)}
  (joined : Joined regions properties) (proper : ∀ region ∈ regions, region.box.IsProper)

include joined proper

/-- The box of a property is that of a region. -/
theorem Joined.exists_region {p : Property Float} (member : p ∈ properties) :
    ∃ region ∈ regions, (region.box == p.box) = true := by
  have listed := (joined.levels _).mp (List.mem_map_of_mem member)
  obtain ⟨region, inside, same⟩ := List.mem_map.mp listed
  exact ⟨region, inside, (Box.beq_iff (proper region inside) (joined.proper p member)).mpr same⟩

theorem Joined.place_lt {p : Property Float} (member : p ∈ properties) :
    place regions p.box < regions.length :=
  List.findIdx_lt_length_of_exists (joined.exists_region proper member)

/-- Properties stay in the order of their first regions when one more region is added. -/
theorem Joined.order_insert {last : Region Float} (properLast : last.box.IsProper)
    (order : (properties.map fun p => place regions p.box).Pairwise (· < ·)) :
    ((Property.insert last properties).map fun p =>
      place (regions ++ [last]) p.box).Pairwise (· < ·) := by
  have kept : (properties.map fun p => place (regions ++ [last]) p.box) =
      properties.map fun p => place regions p.box :=
    List.map_congr_left fun p member => place_concat (joined.place_lt proper member) last
  rcases insert_cases properLast joined.proper with
    ⟨before, p, after, rfl, same, inserted⟩ | ⟨absent, inserted⟩
  · rw [← kept] at order
    simpa [inserted] using order
  · have new : place regions last.box = regions.length := by
      refine List.findIdx_eq_length.mpr fun region inside => ?_
      rw [← Bool.not_eq_true, Box.beq_iff (proper region inside) properLast]
      intro same
      have listed := (joined.levels _).mpr (List.mem_map_of_mem inside)
      obtain ⟨p, member, samePlace⟩ := List.mem_map.mp listed
      exact absent p member (samePlace.trans same)
    rw [inserted, List.map_append, List.pairwise_append, kept]
    refine ⟨order, List.pairwise_singleton _ _, fun i listed j behind => ?_⟩
    obtain ⟨p, member, rfl⟩ := List.mem_map.mp listed
    rw [(List.mem_singleton.mp behind).trans (place_concat_self new properLast)]
    exact joined.place_lt proper member

end Joined

/-- Properties stand in the order of their first regions. -/
theorem order_ofRegions {regions : List (Region Float)}
    (proper : ∀ region ∈ regions, region.box.IsProper) :
    ((ofRegions regions).map fun p => place regions p.box).Pairwise (· < ·) := by
  induction regions using List.reverseRecOn with
  | nil => exact .nil
  | append_singleton regions last ih =>
    rw [List.forall_mem_append, List.forall_mem_singleton] at proper
    rw [ofRegions, List.foldl_concat]
    exact (joined_ofRegions proper.1).order_insert proper.1 proper.2 (ih proper.1)

/-- The properties of regions group them. -/
theorem grouped_ofRegions {regions : List (Region Float)}
    (proper : ∀ region ∈ regions, region.box.IsProper) : Grouped regions (ofRegions regions) := by
  have joined := joined_ofRegions proper
  have polytopes : ∀ p ∈ ofRegions regions,
      p.polytopes = (regions.filter (·.box == p.box)).map (·.polytope) := by
    intro p member
    rw [joined.polytopes p member]
    refine congrArg _ (List.filter_congr fun region inside => ?_)
    rw [Bool.eq_iff_iff, decide_eq_true_eq, Box.beq_iff (proper region inside)
      (joined.proper p member)]
  refine ⟨joined.pairwise_beq, fun p member => ?_, order_ofRegions proper, polytopes,
    count_ofRegions regions⟩
  obtain ⟨region, inside, same⟩ := joined.exists_region proper member
  rw [polytopes p member]
  exact List.ne_nil_of_mem (List.mem_map_of_mem (List.mem_filter.mpr ⟨inside, same⟩))

end Property

namespace Compiler

/-- The end of a script that can be assembled groups the regions of the branches: the properties
have different boxes in the order of the first regions, each of them has the polytopes of all
regions with an equal box, and there are as many polytopes as regions. Whatever constraints are
assembled, no end of a box is a NaN, and the box is equal to itself. -/
theorem script_grouped {c c' : Compiler Float} {results : List Unit}
    {properties : List (Property Float)} (done : handlers.script results c = .ok properties c') :
    (∃ regions, c.branches.rows.mapM (Region.ofRows? · c.dimensions) = .ok regions ∧
      Property.Grouped (regions.filterMap id) properties) ∧
    ∀ (rows : Conjunction Float) (dims : Dimensions) (region : Region Float),
      Region.ofRows? rows dims = .ok (some region) →
        (∀ i ∈ region.box.intervals, i.low.isNaN = false ∧ i.high.isNaN = false) ∧
        (region.box == region.box) = true := by
  constructor
  · rw [handlers_script] at done
    cases assembled : c.branches.properties c.dimensions with
    | error e =>
      rw [assembled] at done
      cases done
    | ok _ =>
      rw [assembled] at done
      cases done
      obtain ⟨regions, made, joined⟩ := Except.bind_eq_ok_iff.mp assembled
      cases joined
      exact ⟨regions, made, Property.grouped_ofRegions (Region.isProper_of_mapM made)⟩
  · intro rows dims region found
    have proper := Region.isProper_of_ofRows? found
    refine ⟨fun i member => ?_, proper.beq_self⟩
    obtain ⟨low, high⟩ := proper i member
    exact ⟨End.isProper_iff.mp low, End.isProper_iff.mp high⟩

/-- A choice of three, of which only the second is about the input. -/
def choices : Script where
  commands := [
    .declareConst "X_0" "Real",
    .declareConst "Y_0" "Real",
    .assert (.apply "or" [
      .apply "<=" [.identifier "Y_0", .constant (.int 1)],
      .apply "<=" [.identifier "X_0", .constant (.int 1)],
      .apply ">=" [.identifier "Y_0", .constant (.int 2)]])]

/-- The first and the last choice have one box, which comes first and has two polytopes. -/
theorem script_grouped_choices :
    let c : Compiler Float := left (Script.walkCommands handlers choices.commands) (new {})
    ∃ properties, handlers.script [] c = .ok properties c.reset ∧
      properties.map (·.polytopes.length) = [2, 1] ∧
      (∃ regions, c.branches.rows.mapM (Region.ofRows? · c.dimensions) = .ok regions ∧
        Property.Grouped (regions.filterMap id) properties) ∧
      ∀ (rows : Conjunction Float) (dims : Dimensions) (region : Region Float),
        Region.ofRows? rows dims = .ok (some region) →
          (∀ i ∈ region.box.intervals, i.low.isNaN = false ∧ i.high.isNaN = false) ∧
          (region.box == region.box) = true := by
  intro c
  obtain ⟨properties, assembled, counts⟩ : ∃ properties, c.branches.properties c.dimensions =
      .ok properties ∧ properties.map (·.polytopes.length) = [2, 1] :=
    Except.exists_of_any (by decide +kernel)
  have done : handlers.script [] c = .ok properties c.reset := by
    rw [handlers_script, assembled]
  exact ⟨properties, done, counts, script_grouped done⟩

end Compiler

end NetSpec
