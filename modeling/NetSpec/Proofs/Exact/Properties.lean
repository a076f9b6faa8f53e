import NetSpec.Proofs.Exact.Region

/-!
# What properties say over exact numbers

A region holds of an input and an output vector that it contains, and a list of properties
holds when some polytope of some property does. `Region.ofRows?_contains_iff` reads a branch:
its region contains the vectors at which all of its constraints hold, and a branch without a
region holds nowhere. Joining regions by their boxes changes nothing, as
`Property.exists_ofRegions_iff` says, so `Branches.properties_contain_iff` takes properties
back to branches.
-/

namespace NetSpec

/-- The vectors lie in the box and in the polytope. -/
def Region.Contains (region : Region ℚ) (x y : List ℚ) : Prop :=
  region.box.Contains x ∧ region.polytope.Contains y

/-- The input vector lies in the box, and the output vector in one of the polytopes. -/
def Property.Contains (property : Property ℚ) (x y : List ℚ) : Prop :=
  property.box.Contains x ∧ ∃ polytope ∈ property.polytopes, polytope.Contains y

section Branch

variable {ν : Key → ℚ} {x y : List ℚ} {dims : Dimensions}

/-- The roles of the constraints of a branch ask what the constraints say. -/
theorem Atom.forall_role_holds_iff (reads : Reads ν x y) (inputs : x.length = dims.inputSize)
    (outputs : y.length = dims.outputSize) {rows : Conjunction ℚ} {roles : List (Role ℚ)}
    (canonical : ∀ atom ∈ rows, atom.form.Canonical)
    (found : List.Forall₂ (fun atom role => atom.role dims = .ok role) rows roles) :
    (∀ role ∈ roles, role.Proper x.length) ∧
      ((∀ role ∈ roles, role.Holds x y) ↔ ∀ atom ∈ rows, atom.Holds ν) := by
  induction found with
  | nil => simp
  | cons first _ ih =>
    obtain ⟨canonicalFirst, canonicalOthers⟩ := List.forall_mem_cons.mp canonical
    obtain ⟨proper, holds⟩ := Atom.role_holds_iff reads canonicalFirst inputs outputs first
    obtain ⟨properOthers, holdsOthers⟩ := ih canonicalOthers
    exact ⟨List.forall_mem_cons.mpr ⟨proper, properOthers⟩,
      by rw [List.forall_mem_cons, List.forall_mem_cons, holds, holdsOthers]⟩

/-- The region of roles asks what the roles ask. -/
theorem Region.contains_of_roles {roles : List (Role ℚ)}
    (proper : ∀ role ∈ roles, role.Proper x.length)
    (consistent : roles.any (·.isContradiction) = false) :
    (⟨roles.foldl Role.restrict (.unbounded x.length), ⟨roles.filterMap (·.row?)⟩⟩ :
      Region ℚ).Contains x y ↔ ∀ role ∈ roles, role.Holds x y := by
  have none : ∀ role ∈ roles, role.isContradiction = false := by simpa using consistent
  rw [Region.Contains, Role.contains_foldl_restrict proper]
  constructor
  · rintro ⟨⟨_, bounds⟩, rows⟩ role member
    exact ⟨none role member, bounds role member, fun row found =>
      rows row (List.mem_filterMap.mpr ⟨role, member, found⟩)⟩
  · intro holds
    refine ⟨⟨Box.contains_unbounded x, fun role member => (holds role member).bounds⟩, ?_⟩
    intro row listed
    obtain ⟨role, member, found⟩ := List.mem_filterMap.mp listed
    exact (holds role member).admits row found

/-- The region of a branch contains the vectors at which all constraints of it hold, and a
branch without a region has none. -/
theorem Region.ofRows?_contains_iff (reads : Reads ν x y) (inputs : x.length = dims.inputSize)
    (outputs : y.length = dims.outputSize) {rows : Conjunction ℚ} {region? : Option (Region ℚ)}
    (canonical : ∀ atom ∈ rows, atom.form.Canonical)
    (found : Region.ofRows? rows dims = .ok region?) :
    (∃ region ∈ region?, region.Contains x y) ↔ ∀ atom ∈ rows, atom.Holds ν := by
  obtain ⟨roles, each, made⟩ := Except.bind_eq_ok_iff.mp found
  obtain ⟨proper, holds⟩ := Atom.forall_role_holds_iff reads inputs outputs canonical
    (Except.mapM_eq_ok_iff.mp each)
  rw [← holds]
  cases contradiction : roles.any (·.isContradiction) with
  | true =>
    rw [contradiction, if_pos rfl] at made
    obtain rfl := Except.ok.inj made
    obtain ⟨role, member, never⟩ := List.any_eq_true.mp contradiction
    simp only [Option.mem_def, reduceCtorEq, false_and, exists_false, false_iff]
    intro all
    have consistent := (all role member).consistent
    rw [never] at consistent
    exact Bool.noConfusion consistent
  | false =>
    rw [contradiction, if_neg Bool.false_ne_true] at made
    obtain rfl := Except.ok.inj made
    rw [← inputs]
    simpa using Region.contains_of_roles proper contradiction

end Branch

namespace Property

variable {x y : List ℚ}

/-- A region adds itself to what properties hold of. -/
theorem exists_insert_iff (region : Region ℚ) (properties : List (Property ℚ)) :
    (∃ p ∈ insert region properties, p.Contains x y) ↔
      region.Contains x y ∨ ∃ p ∈ properties, p.Contains x y := by
  induction properties with
  | nil => simp [insert, Contains, Region.Contains]
  | cons p properties ih =>
    rw [insert]
    split
    next same =>
      have same : p.box = region.box := Box.eq_of_beq same
      have joined : (⟨p.box, p.polytopes ++ [region.polytope]⟩ : Property ℚ).Contains x y ↔
          region.Contains x y ∨ p.Contains x y := by
        simp only [Contains, Region.Contains, same, List.mem_append, List.mem_singleton,
          or_and_right, exists_or, exists_eq_left, and_or_left]
        exact or_comm
      simp only [List.mem_cons, exists_eq_or_imp, joined, or_assoc]
    next =>
      simp only [List.mem_cons, exists_eq_or_imp, ih]
      exact or_left_comm

/-- The properties of regions hold where one of the regions does. -/
theorem exists_ofRegions_iff (regions : List (Region ℚ)) :
    (∃ p ∈ ofRegions regions, p.Contains x y) ↔ ∃ region ∈ regions, region.Contains x y := by
  have onto (properties : List (Property ℚ)) :
      (∃ p ∈ regions.foldl (fun properties region => insert region properties) properties,
        p.Contains x y) ↔
      (∃ p ∈ properties, p.Contains x y) ∨ ∃ region ∈ regions, region.Contains x y := by
    induction regions generalizing properties with
    | nil => simp
    | cons region regions ih =>
      rw [List.foldl_cons, ih, exists_insert_iff]
      simp only [List.mem_cons, exists_eq_or_imp]
      rw [or_comm (a := region.Contains x y), or_assoc]
  exact (onto []).trans (by simp)

end Property

/-- Properties hold where all constraints of some branch do. -/
theorem Branches.properties_contain_iff {ν : Key → ℚ} {x y : List ℚ} {dims : Dimensions}
    (reads : Reads ν x y) (inputs : x.length = dims.inputSize)
    (outputs : y.length = dims.outputSize) {branches : Branches ℚ} {properties : List (Property ℚ)}
    (canonical : ∀ rows ∈ branches.rows, ∀ atom ∈ rows, atom.form.Canonical)
    (found : branches.properties dims = .ok properties) :
    (∃ p ∈ properties, p.Contains x y) ↔
      ∃ rows ∈ branches.rows, ∀ atom ∈ rows, atom.Holds ν := by
  obtain ⟨regions, each, made⟩ := Except.bind_eq_ok_iff.mp found
  obtain rfl := Except.ok.inj made
  rw [Property.exists_ofRegions_iff]
  replace each := Except.mapM_eq_ok_iff.mp each
  clear found made
  generalize branches.rows = alternatives at canonical each
  induction each with
  | nil => simp
  | @cons _ region? _ _ first _ ih =>
    obtain ⟨canonicalFirst, canonicalOthers⟩ := List.forall_mem_cons.mp canonical
    have head := Region.ofRows?_contains_iff reads inputs outputs canonicalFirst first
    have others := ih canonicalOthers
    simp only [List.mem_cons, exists_eq_or_imp, ← head, ← others]
    cases region? <;> simp

end NetSpec
