import NetSpec.Property.Region
import NetSpec.Proofs.Constraint.Coefficients

/-!
# The constraints that play a role

`Atom.role_cases` says everything that finding a role can mean: the constraint has no
variables, or a single input, or outputs only, and the role carries what belongs to it.
`Atom.role_terms_cases` says the same by the terms of an ordered form.
-/

namespace NetSpec

namespace Key

/-- Keys of inputs are given back by their indices. -/
theorem eq_map_input {keys : List Key} (inputs : ∀ key ∈ keys, ∃ i, key = input i) :
    keys = (keys.filterMap inputIndex?).map input := by
  induction keys with
  | nil => rfl
  | cons key keys ih =>
    obtain ⟨⟨i, rfl⟩, others⟩ := List.forall_mem_cons.mp inputs
    simpa [inputIndex?] using ih others

end Key

variable {α : Type} [Scalar α]

/-- A constraint with a role has no variables, or bounds an input that there is, or has
outputs that there are. -/
theorem Atom.role_cases {atom : Atom α} {dims : Dimensions} {role : Role α}
    (found : atom.role dims = .ok role) :
    (atom.form.variableTerms = [] ∧ role = .constant atom.form.constantTerm) ∨
    (∃ i, atom.form.variableTerms.map (·.1) = [.input i] ∧ i < dims.inputSize ∧
      role = .bound i (atom.form.coefficient (.input i)) atom.form.constantTerm) ∨
    ((∀ term ∈ atom.form.variableTerms, ∃ j < dims.outputSize, term.1 = .output j) ∧
      role = .row (atom.toRow dims.outputSize)) := by
  simp only [Atom.role] at found
  split at found
  next => simp at found
  next named =>
    have plain : ∀ key ∈ atom.form.variableTerms.map (·.1),
        (∃ i, key = .input i) ∨ ∃ j, key = .output j := by
      intro key member
      have noOther := List.findSome?_eq_none_iff.mp named key member
      obtain ⟨term, inForm, rfl⟩ := List.mem_map.mp member
      have notConstant : term.1 ≠ .constant := by simpa using (List.mem_filter.mp inForm).2
      cases key : term.1 with
      | constant => exact absurd key notConstant
      | input i => exact .inl ⟨i, rfl⟩
      | output j => exact .inr ⟨j, rfl⟩
      | other id =>
        rw [key] at noOther
        cases noOther
    split at found
    next inputs outputs =>
      rw [List.filterMap_eq_nil_iff] at inputs outputs
      have none : atom.form.variableTerms.map (·.1) = [] := by
        rw [List.eq_nil_iff_forall_not_mem]
        intro key member
        rcases plain key member with ⟨i, rfl⟩ | ⟨j, rfl⟩
        · simpa [Key.inputIndex?] using inputs _ member
        · simpa [Key.outputIndex?] using outputs _ member
      exact .inl ⟨List.map_eq_nil_iff.mp none, (Except.ok.inj found).symm⟩
    next i inputs outputs =>
      rw [List.filterMap_eq_nil_iff] at outputs
      have allInputs : ∀ key ∈ atom.form.variableTerms.map (·.1), ∃ i, key = .input i := by
        intro key member
        rcases plain key member with input | ⟨j, rfl⟩
        · exact input
        · simpa [Key.outputIndex?] using outputs _ member
      have keys := Key.eq_map_input allInputs
      rw [inputs] at keys
      split at found
      next bound => exact .inr (.inl ⟨i, keys, bound, (Except.ok.inj found).symm⟩)
      next => simp at found
    next inputs _ =>
      rw [List.filterMap_eq_nil_iff] at inputs
      split at found
      next => simp at found
      next inside =>
        refine .inr (.inr ⟨fun term member => ?_, (Except.ok.inj found).symm⟩)
        have key := List.mem_map_of_mem (f := (·.1)) member
        rcases plain _ key with ⟨i, same⟩ | ⟨j, same⟩
        · simpa [same, Key.inputIndex?] using inputs _ key
        · have listed : j ∈ (atom.form.variableTerms.map (·.1)).filterMap Key.outputIndex? :=
            List.mem_filterMap.mpr ⟨_, key, by rw [same]; rfl⟩
          exact ⟨j, by simpa using List.find?_eq_none.mp inside j listed, same⟩
    next => simp at found
    next => simp at found

/-- A role belongs to the terms of its constraint: to none, or to a single input, or to some
outputs. -/
theorem Atom.role_terms_cases {atom : Atom α} {dims : Dimensions} {role : Role α}
    (ordered : atom.form.Ordered) (found : atom.role dims = .ok role) :
    (atom.form.variableTerms = [] ∧ role = .constant atom.form.constantTerm) ∨
    (∃ i c, atom.form.variableTerms = [(.input i, c)] ∧ i < dims.inputSize ∧
      role = .bound i c atom.form.constantTerm) ∨
    (atom.form.variableTerms ≠ [] ∧
      (∀ term ∈ atom.form.variableTerms, ∃ j < dims.outputSize, term.1 = .output j) ∧
      role = .row (atom.toRow dims.outputSize)) := by
  rcases role_cases found with none | ⟨i, single, inside, rfl⟩ | ⟨outputs, rfl⟩
  · exact .inl none
  · obtain ⟨⟨key, c⟩, terms, same⟩ := List.map_eq_singleton_iff.mp single
    obtain rfl : key = .input i := same
    have member : (Key.input i, c) ∈ atom.form.terms :=
      (List.mem_filter.mp (terms ▸ List.mem_singleton_self _)).1
    have coefficient : atom.form.coefficient (.input i) = c := by
      rw [LinearForm.coefficient, (LinearForm.find?_eq_some_iff ordered).mpr member]
      rfl
    exact .inr (.inl ⟨i, c, terms, inside, by rw [coefficient]⟩)
  · refine .inr (.inr ⟨fun none => ?_, outputs, rfl⟩)
    -- Without variables the role is the constant.
    simp [role, none] at found

end NetSpec
