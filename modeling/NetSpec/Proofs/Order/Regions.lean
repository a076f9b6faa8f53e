import NetSpec.Proofs.Order.Branches
import NetSpec.Proofs.Property.Levels

/-!
# Regions apart from the order of constraints

A constraint that has a role has no variables but inputs and outputs, so renumbering other
names does not change it, and its role does not depend on the order in which anything has been
asserted. The region of a branch is made from the roles. Their order decides about the order
of rows and about which of two equal ends a box keeps, and `Region.profile` is the region
apart from these.
-/

namespace NetSpec

section Role

variable {α : Type}

/-- The same cause, apart from which variable is not expected. -/
inductive CompileError.Alike : CompileError α → CompileError α → Prop where
  | refl (e : CompileError α) : Alike e e
  | unexpectedVariable (name name' : String) :
    Alike (.unexpectedVariable name) (.unexpectedVariable name')

/-- A form has no variable of another name if no other key has a coefficient. -/
theorem LinearForm.findSome?_otherId?_eq_none_iff {form : LinearForm α} (ordered : form.Ordered) :
    (form.variableTerms.map (·.1)).findSome? (·.otherId?) = none ↔
      ∀ id, form.find? (.other id) = none := by
  rw [List.findSome?_eq_none_iff]
  constructor
  · intro absent id
    cases found : form.find? (.other id) with
    | none => rfl
    | some c =>
      have member : (Key.other id, c) ∈ form.variableTerms :=
        List.mem_filter.mpr ⟨(find?_eq_some_iff ordered).mp found, by simp⟩
      exact nomatch absent _ (List.mem_map_of_mem (f := (·.1)) member)
  · intro absent key member
    obtain ⟨⟨key, c⟩, inForm, rfl⟩ := List.mem_map.mp member
    cases key with
    | other id =>
      have found := (find?_eq_some_iff ordered).mpr (List.mem_of_mem_filter inForm)
      exact nomatch (absent id).symm.trans found
    | constant => rfl
    | input i => rfl
    | output j => rfl

/-- Forms without other variables are not changed by renumbering. -/
theorem LinearForm.Renumbered.eq_of_plain {σ : Equiv.Perm Nat} {a b : LinearForm α}
    (h : a.Renumbered σ b) (plain : ∀ id, a.find? (.other id) = none) : a = b := by
  refine ext_find? h.orderedLeft h.orderedRight fun key => ?_
  cases key with
  | constant => exact (h.find? .constant).symm
  | input i => exact (h.find? (.input i)).symm
  | output j => exact (h.find? (.output j)).symm
  | other id =>
    have renumbered := h.find? (Key.renumber σ.symm (.other id))
    rw [Key.renumber_renumber_symm] at renumbered
    rw [renumbered, plain]
    exact (plain _).symm

variable [Scalar α]

/-- The names of other variables only matter to the message. -/
theorem Atom.role_agree_of_sizes (atom : Atom α) {dims dims' : Dimensions}
    (inputs : dims.inputSize = dims'.inputSize) (outputs : dims.outputSize = dims'.outputSize) :
    Except.Agree CompileError.Alike Eq (atom.role dims) (atom.role dims') := by
  unfold role
  rw [inputs, outputs]
  dsimp only
  split
  next => exact .error (.unexpectedVariable _ _)
  next => exact .of_eq CompileError.Alike.refl (fun _ => rfl) rfl

theorem Atom.role_of_not_plain {atom : Atom α} (ordered : atom.form.Ordered)
    (notPlain : ¬ ∀ id, atom.form.find? (.other id) = none) (dims : Dimensions) :
    ∃ name, atom.role dims = .error (.unexpectedVariable name) := by
  rw [← LinearForm.findSome?_otherId?_eq_none_iff ordered] at notPlain
  obtain ⟨id, found⟩ := Option.ne_none_iff_exists'.mp notPlain
  simp only [role]
  rw [found]
  exact ⟨_, rfl⟩

/-- Constraints that differ by numbers only have the same role, or both have none. -/
theorem Atom.Renumbered.role_agree {σ : Equiv.Perm Nat} {a b : Atom α} (h : a.Renumbered σ b)
    {dims dims' : Dimensions} (inputs : dims.inputSize = dims'.inputSize)
    (outputs : dims.outputSize = dims'.outputSize) :
    Except.Agree CompileError.Alike Eq (a.role dims) (b.role dims') := by
  by_cases plain : ∀ id, a.form.find? (.other id) = none
  · cases a
    cases b
    obtain rfl := h.eq_of_plain plain
    exact role_agree_of_sizes _ inputs outputs
  · have notPlain : ¬ ∀ id, b.form.find? (.other id) = none := by
      intro absent
      refine plain fun id => ?_
      rw [← h.find?]
      exact absent (σ id)
    obtain ⟨name, failed⟩ := role_of_not_plain h.orderedLeft plain dims
    obtain ⟨name', failed'⟩ := role_of_not_plain h.orderedRight notPlain dims'
    rw [failed, failed']
    exact .error (.unexpectedVariable name name')

end Role

namespace Region

/-- A region apart from the order of its rows and the signs of zero ends. -/
def profile (region : Region Float) : List Interval.Levels × Multiset (Row Float) :=
  (region.box.levels, region.polytope.rows)

/-- Branches whose constraints have the same roles in another order have regions with the same
profile, or none, or cannot be assembled. -/
theorem ofRows?_alike {rows rows' : Conjunction Float} {dims dims' : Dimensions}
    (inputs : dims.inputSize = dims'.inputSize)
    (roles : Conjunction.image (fun atom => (atom.role dims).toOption) rows =
      Conjunction.image (fun atom => (atom.role dims').toOption) rows') :
    Except.Alike (fun region? region?' => region?.map profile = region?'.map profile)
      (ofRows? rows dims) (ofRows? rows' dims') := by
  have perm := Multiset.coe_eq_coe.mp roles
  have alike : Except.Alike (fun roles roles' => (roles.map id).Perm (roles'.map id))
      (rows.mapM (·.role dims)) (rows'.mapM (·.role dims')) :=
    Except.mapM_alike_of_map_perm perm fun a _ b same => by
      exact Except.alike_eq_iff_toOption_eq.mpr same
  refine alike.bind fun roles roles' reordered => ?_
  rw [List.map_id, List.map_id] at reordered
  rw [reordered.any_eq]
  split
  next => exact .ok rfl
  next =>
    refine .ok (congrArg some (Prod.ext ?_ ?_))
    · show (roles.foldl Role.restrict (.unbounded dims.inputSize)).levels =
        (roles'.foldl Role.restrict (.unbounded dims'.inputSize)).levels
      rw [(Role.levels_foldl_restrict (Box.isProper_unbounded _) roles).2,
        (Role.levels_foldl_restrict (Box.isProper_unbounded _) roles').2, inputs]
      exact reordered.foldl_eq _
    · exact Multiset.coe_eq_coe.mpr (reordered.filterMap _)

end Region

end NetSpec
