import NetSpec.Proofs.Number.Zero
import NetSpec.Proofs.Property.Role

/-!
# Forms without zero coefficients

Sums, differences and opposites of forms without zero coefficients have none, since a sum that
is equal to zero leaves no term. Multiples are another matter: `LinearForm.scale` looks at the
factor alone, and where a product of numbers that are not zero is rounded to zero the term
stays, as `LinearForm.nonzero_scale_iff` says. So a variable may have a term and count as one
although its coefficient is zero, and a constraint that holds of every input may then bound one.

The forms that are built without such a product have no zero coefficients, and neither have the
bounds on inputs that come from them.
-/

namespace NetSpec

namespace LinearForm

section Terms

variable {α : Type} [Scalar α]

/-- No coefficient is equal to zero. -/
def Nonzero (form : LinearForm α) : Prop := ∀ term ∈ form.terms, (term.2 == Scalar.zero) = false

theorem nonzero_zero : (zero : LinearForm α).Nonzero := List.forall_mem_nil _

theorem Nonzero.addTerm {form : LinearForm α} (nonzero : form.Nonzero) (key : Key) (c : α) :
    (form.addTerm key c).Nonzero :=
  forall_insert_ne_zero nonzero key c

theorem Nonzero.addTerms {form : LinearForm α} (nonzero : form.Nonzero) (f : α → α)
    (terms : List (Key × α)) : (form.addTerms f terms).Nonzero := by
  induction terms generalizing form with
  | nil => exact nonzero
  | cons term terms ih => exact ih (nonzero.addTerm term.1 (f term.2))

/-- A multiple has a zero coefficient if and only if a product has become zero. -/
theorem nonzero_scale_iff (form : LinearForm α) (factor : α) :
    (form.scale factor).Nonzero ↔ (factor == Scalar.zero) = true ∨
      ∀ term ∈ form.terms, (term.2 * factor == Scalar.zero) = false := by
  simp only [scale]
  split
  next zero => exact ⟨fun _ => .inl zero, fun _ => nonzero_zero⟩
  next nonzero =>
    rw [or_iff_right nonzero]
    exact List.forall_mem_map

end Terms

/-- Forms that are built from numbers and variables, without a product of a coefficient and a
factor that is zero although the factor is not. -/
inductive Built : LinearForm Float → Prop where
  | zero : Built .zero
  | ofScalar (value : Float) : Built (.ofScalar value)
  | ofKey (key : Key) : Built (.ofKey key)
  | addTerm {form : LinearForm Float} (built : Built form) (key : Key) (value : Float) :
      Built (form.addTerm key value)
  | add {a b : LinearForm Float} (left : Built a) (right : Built b) : Built (a + b)
  | sub {a b : LinearForm Float} (left : Built a) (right : Built b) : Built (a - b)
  | neg {a : LinearForm Float} (built : Built a) : Built (-a)
  | scale {a : LinearForm Float} (built : Built a) (factor : Float)
      (noUnderflow : (factor == 0.0) = false → ∀ term ∈ a.terms, (term.2 * factor == 0.0) = false) :
      Built (a.scale factor)

namespace Built

variable {form : LinearForm Float}

theorem ordered (built : Built form) : form.Ordered := by
  induction built with
  | zero => exact ordered_zero
  | ofScalar value => exact ordered_ofScalar value
  | ofKey key => exact ordered_ofKey key
  | addTerm _ key value ih => exact ih.addTerm key value
  | add _ _ ih _ => exact ih.add _
  | sub _ _ ih _ => exact ih.sub _
  | neg _ ih => exact ih.neg
  | scale _ factor _ ih => exact ih.scale factor

theorem nonzero (built : Built form) : form.Nonzero := by
  induction built with
  | zero => exact nonzero_zero
  | ofScalar value => exact nonzero_zero.addTerm _ value
  | ofKey key => exact nonzero_zero.addTerm key _
  | addTerm _ key value ih => exact ih.addTerm key value
  | add _ _ ih _ => exact ih.addTerms id _
  | sub _ _ ih _ => exact ih.addTerms (-·) _
  | @neg a _ ih =>
    intro term member
    obtain ⟨old, inForm, rfl⟩ := List.mem_map.mp member
    exact (Binary64.neg_beq_zero old.2).trans (ih old inForm)
  | scale _ factor noUnderflow _ =>
    refine (nonzero_scale_iff _ factor).mpr ?_
    cases zero : factor == Scalar.zero with
    | true => exact .inl rfl
    | false => exact .inr (noUnderflow zero)

/-- A key has a coefficient that is not zero if there is a term for it. -/
theorem coefficient_ne_zero (built : Built form) {key : Key} {c : Float}
    (found : form.find? key = some c) : (form.coefficient key == 0.0) = false := by
  have nonzero : (c == Scalar.zero) = false :=
    built.nonzero (key, c) ((find?_eq_some_iff built.ordered).mp found)
  rw [coefficient, found]
  exact nonzero

/-- A constant form has no other coefficients. -/
theorem isConstant_iff_coefficients (built : Built form) : form.isConstant = true ↔
    ∀ key, key ≠ .constant → (form.coefficient key == 0.0) = true := by
  rw [isConstant_iff built.ordered]
  refine forall₂_congr fun key _ => ?_
  cases found : form.find? key with
  | none =>
    have zero : ((0.0 : Float) == 0.0) = true := Binary64.beq_zero_iff.mpr ⟨.positive, rfl⟩
    rw [coefficient, found, Option.getD_none]
    exact iff_of_true rfl zero
  | some c =>
    rw [built.coefficient_ne_zero found]
    exact iff_of_false (Option.some_ne_none c) Bool.false_ne_true

/-- A bound on an input has the coefficient of its one variable. -/
theorem bound_ne_zero (built : Built form) {dims : Dimensions} {index : Nat} {c k : Float}
    (found : (Atom.mk form).role dims = .ok (.bound index c k)) : (c == 0.0) = false := by
  rcases Atom.role_cases found with ⟨-, same⟩ | ⟨i, keys, -, same⟩ | ⟨-, same⟩
  · cases same
  · cases same
    have listed : .input index ∈ form.variableTerms.map (·.1) := keys ▸ List.mem_singleton_self _
    obtain ⟨⟨key, d⟩, member, rfl⟩ := List.mem_map.mp listed
    have found := (find?_eq_some_iff built.ordered).mpr (List.mem_filter.mp member).1
    exact built.coefficient_ne_zero found
  · cases same

end Built

end LinearForm

/-- A constraint that compares two forms. -/
def Atom.Compares (atom : Atom Float) (a b : LinearForm Float) : Prop :=
  atom = .le a b ∨ atom = .ge a b

/-- A form that is built without a product that becomes zero has no coefficient that is zero,
and a multiple of it has one exactly if a product becomes zero. The form is constant if and only
if all its variables have the coefficient zero, the variables that it lists have others, and no
bound on an input by constraints on such forms has the coefficient zero. -/
theorem LinearForm.coefficients_nonzero {form : LinearForm Float} (built : form.Built)
    {rows : Conjunction Float}
    (compare : ∀ atom ∈ rows, ∃ a b, LinearForm.Built a ∧ LinearForm.Built b ∧ atom.Compares a b) :
    (∀ term ∈ form.terms, (term.2 == 0.0) = false) ∧
    (∀ factor, (∀ term ∈ (form.scale factor).terms, (term.2 == 0.0) = false) ↔
      (factor == 0.0) = true ∨ ∀ term ∈ form.terms, (term.2 * factor == 0.0) = false) ∧
    (form.isConstant = true ↔ ∀ key, key ≠ .constant → (form.coefficient key == 0.0) = true) ∧
    (∀ term ∈ form.variableTerms, (term.2 == 0.0) = false) ∧
    ∀ atom ∈ rows, ∀ dims index c k, atom.role dims = .ok (.bound index c k) →
      (c == 0.0) = false := by
  refine ⟨built.nonzero, nonzero_scale_iff form, built.isConstant_iff_coefficients,
    fun term member => built.nonzero term (List.mem_filter.mp member).1, ?_⟩
  intro atom member dims index c k found
  obtain ⟨a, b, left, right, rfl | rfl⟩ := compare atom member
  · exact (left.sub right).bound_ne_zero found
  · exact (right.sub left).bound_ne_zero found

/-- The index of the input that a constraint bounds, and whether its coefficient is zero. -/
def Role.boundTest? : Role Float → Option (Nat × Bool)
  | .bound index c _ => some (index, c == 0.0)
  | _ => none

/-- Computing the test of a role finds the bound. -/
theorem Role.exists_bound {result : Except (CompileError Float) (Role Float)} {index : Nat}
    {test : Bool} (computed : result.toOption.bind Role.boundTest? = some (index, test)) :
    ∃ c k, result = .ok (.bound index c k) ∧ (c == 0.0) = test := by
  cases result with
  | error e => cases computed
  | ok role =>
    cases role with
    | bound i c k =>
      obtain ⟨rfl, rfl⟩ := Prod.mk.inj (Option.some.inj computed)
      exact ⟨c, k, rfl, rfl⟩
    | constant k => cases computed
    | row r => cases computed

namespace LinearForm

/-- Half of an input is compared with one, which bounds the input. -/
theorem coefficients_nonzero_half :
    (∀ term ∈ ((ofKey (.input 0) : LinearForm Float).scale 0.5).terms, (term.2 == 0.0) = false) ∧
    (∃ c k, (Atom.le ((ofKey (.input 0)).scale 0.5) (ofScalar 1.0)).role ⟨1, 0, []⟩ =
      .ok (.bound 0 c k) ∧ (c == 0.0) = false) := by
  have built : Built ((ofKey (.input 0)).scale 0.5) :=
    .scale (.ofKey _) _ fun _ => by decide +kernel
  obtain ⟨c, k, found, -⟩ : ∃ c k, (Atom.le ((ofKey (.input 0)).scale 0.5) (ofScalar 1.0)).role
      ⟨1, 0, []⟩ = .ok (.bound 0 c k) ∧ (c == 0.0) = false :=
    Role.exists_bound (by decide +kernel)
  have compare : ∀ atom ∈ [Atom.le ((ofKey (.input 0)).scale 0.5) (ofScalar 1.0)],
      ∃ a b, Built a ∧ Built b ∧ atom.Compares a b :=
    List.forall_mem_singleton.mpr ⟨_, _, built, .ofScalar 1.0, .inl rfl⟩
  obtain ⟨nonzero, -, -, -, bounds⟩ := coefficients_nonzero built compare
  exact ⟨nonzero, c, k, found, bounds _ (List.mem_singleton_self _) _ _ _ _ found⟩

/-- Half of the least positive multiple of an input has a term with the coefficient zero. It
counts as a variable, and comparing it with one, which holds of every input, bounds the input. -/
theorem scale_underflow :
    (∃ term ∈ (((ofKey (.input 0) : LinearForm Float).scale 5e-324).scale 0.5).terms,
      (term.2 == 0.0) = true) ∧
    (((ofKey (.input 0) : LinearForm Float).scale 5e-324).scale 0.5).isConstant = false ∧
    ((((ofKey (.input 0) : LinearForm Float).scale 5e-324).scale 0.5).coefficient (.input 0) ==
      0.0) = true ∧
    ∃ c k, (Atom.le (((ofKey (.input 0)).scale 5e-324).scale 0.5) (ofScalar 1.0)).role
      ⟨1, 0, []⟩ = .ok (.bound 0 c k) ∧ (c == 0.0) = true := by
  refine ⟨by decide +kernel, by decide +kernel, by decide +kernel, ?_⟩
  exact Role.exists_bound (by decide +kernel)

end LinearForm

end NetSpec
