import NetSpec.Proofs.Exact.Region

/-!
# Forms are known by their values

A valuation gives every key a number, and the key of the constant the number one. Under the
valuation that gives one to a single variable and zero to all others, the value of a form is its
constant and the coefficient of that variable. So the values of a form tell its coefficients, and
with them all of a canonical form, since that has no other terms than those it needs.

Hence the laws of forms are laws of numbers: two ways to compute a form from the same operands
result in the same form, term by term, if they result in the same number under every valuation.
-/

namespace NetSpec

namespace LinearForm

/-- Forms that the operations make from numbers and variables. -/
inductive Composed : LinearForm ℚ → Prop where
  | zero : Composed .zero
  | ofScalar (c : ℚ) : Composed (.ofScalar c)
  | ofKey (key : Key) : Composed (.ofKey key)
  | addTerm {form : LinearForm ℚ} (composed : Composed form) (key : Key) (c : ℚ) :
      Composed (form.addTerm key c)
  | add {a b : LinearForm ℚ} (left : Composed a) (right : Composed b) : Composed (a + b)
  | sub {a b : LinearForm ℚ} (left : Composed a) (right : Composed b) : Composed (a - b)
  | neg {a : LinearForm ℚ} (composed : Composed a) : Composed (-a)
  | scale {a : LinearForm ℚ} (composed : Composed a) (factor : ℚ) : Composed (a.scale factor)

/-- Every operation keeps the terms in order and drops those that become zero. -/
theorem Composed.canonical {form : LinearForm ℚ} (composed : form.Composed) : form.Canonical := by
  induction composed with
  | zero => exact .zero
  | ofScalar c => exact .ofScalar c
  | ofKey key => exact .ofKey key
  | addTerm _ key c ih => exact ih.addTerm key c
  | add _ _ ih _ => exact ih.add _
  | sub _ _ ih _ => exact ih.sub _
  | neg _ ih => exact ih.neg
  | scale _ factor ih => exact ih.scale factor

/-! ### Values tell coefficients -/

/-- The value is linear in the valuation as well. -/
theorem value_add_valuation (ν μ : Key → ℚ) (form : LinearForm ℚ) :
    form.value (ν + μ) = form.value ν + form.value μ := by
  obtain ⟨terms⟩ := form
  simp only [value]
  induction terms with
  | nil => simp
  | cons term terms ih =>
    obtain ⟨key, c⟩ := term
    rw [valueOf_cons, valueOf_cons, valueOf_cons, ih, Pi.add_apply]
    ring

/-- Where a single key has a number, the value is its coefficient. -/
theorem value_single {form : LinearForm ℚ} (ordered : form.Ordered) (key : Key) :
    form.value (Pi.single key 1) = form.coefficient key := by
  obtain ⟨terms⟩ := form
  show valueOf (Pi.single key 1) terms = (terms.lookup key).getD 0
  induction terms with
  | nil => rfl
  | cons term terms ih =>
    obtain ⟨k, c⟩ := term
    obtain ⟨below, increasing⟩ := List.pairwise_cons.mp ordered
    rw [valueOf_cons, ih increasing]
    by_cases same : key = k
    · subst same
      rw [lookup_of_below below]
      simp
    · rw [Pi.single_eq_of_ne (Ne.symm same), List.lookup_cons, beq_false_of_ne same]
      simp

/-- The valuation that gives one to a variable and zero to all others. -/
def valuationOf (key : Key) : Key → ℚ := Pi.single .constant 1 + Pi.single key 1

theorem valuationOf_constant {key : Key} (differ : key ≠ .constant) :
    valuationOf key .constant = 1 := by
  rw [valuationOf, Pi.add_apply, Pi.single_eq_same, Pi.single_eq_of_ne differ.symm, add_zero]

/-- The coefficient of a variable is what the value gains with the variable. -/
theorem value_valuationOf {form : LinearForm ℚ} (ordered : form.Ordered) (key : Key) :
    form.value (valuationOf key) = form.value (Pi.single .constant 1) + form.coefficient key := by
  rw [valuationOf, value_add_valuation, value_single ordered key]

namespace Canonical

variable {a b c : LinearForm ℚ}

/-- A canonical form has a term where the coefficient is not zero, and only there. -/
theorem find?_eq (canonical : a.Canonical) (key : Key) :
    a.find? key = kept (a.coefficient key) := by
  rw [coefficient]
  cases found : a.find? key with
  | none => rfl
  | some c =>
    have nonzero : c ≠ 0 := canonical.nonzero _ ((find?_eq_some_iff canonical.ordered).mp found)
    rw [Option.getD_some, kept, if_neg (by simpa using nonzero)]

/-- Canonical forms with the same values are the same. -/
theorem eq_of_value (canonicalA : a.Canonical) (canonicalB : b.Canonical)
    (same : ∀ ν : Key → ℚ, ν .constant = 1 → a.value ν = b.value ν) : a = b := by
  have constant : a.value (Pi.single .constant 1) = b.value (Pi.single .constant 1) :=
    same _ (Pi.single_eq_same ..)
  have coefficients (key : Key) : a.coefficient key = b.coefficient key := by
    by_cases isConstant : key = .constant
    · rw [isConstant, ← value_single canonicalA.ordered, ← value_single canonicalB.ordered,
        constant]
    · have gained := same (valuationOf key) (valuationOf_constant isConstant)
      rw [value_valuationOf canonicalA.ordered, value_valuationOf canonicalB.ordered,
        constant] at gained
      exact add_left_cancel gained
  refine ext_find? canonicalA.ordered canonicalB.ordered fun key => ?_
  rw [canonicalA.find?_eq, canonicalB.find?_eq, coefficients]

theorem beq_iff_value (canonicalA : a.Canonical) (canonicalB : b.Canonical) :
    (a == b) = true ↔ ∀ ν : Key → ℚ, ν .constant = 1 → a.value ν = b.value ν := by
  have tested : (a == b) = true ↔ a.terms = b.terms := beq_iff_eq (α := List (Key × ℚ))
  constructor
  · intro same ν _
    rw [value, tested.mp same, value]
  · intro same
    rw [tested, canonicalA.eq_of_value canonicalB same]

/-- A form is constant if no variable has an influence on its value. -/
theorem isConstant_iff_value (canonical : a.Canonical) : a.isConstant = true ↔
    ∀ ν μ : Key → ℚ, ν .constant = 1 → μ .constant = 1 → a.value ν = a.value μ := by
  constructor
  · intro constant ν μ one one'
    rw [value_of_isConstant ν canonical.ordered one constant,
      value_of_isConstant μ canonical.ordered one' constant]
  · intro same
    refine (isConstant_iff canonical.ordered).mpr fun key differ => ?_
    have gained := same (valuationOf key) (Pi.single .constant 1) (valuationOf_constant differ)
      (Pi.single_eq_same ..)
    rw [value_valuationOf canonical.ordered, add_eq_left] at gained
    rw [canonical.find?_eq, gained]
    rfl

/-! ### Laws of forms -/

theorem add_commutes (canonicalA : a.Canonical) (canonicalB : b.Canonical) : a + b = b + a :=
  (canonicalA.add b).eq_of_value (canonicalB.add a) fun ν _ => by
    rw [value_add, value_add, add_comm]

theorem add_associates (canonicalA : a.Canonical) (b c : LinearForm ℚ) :
    a + b + c = a + (b + c) :=
  ((canonicalA.add b).add c).eq_of_value (canonicalA.add (b + c)) fun ν _ => by
    rw [value_add, value_add, value_add, value_add, add_assoc]

theorem sub_eq_add_opposite (canonicalA : a.Canonical) (b : LinearForm ℚ) : a - b = a + -b :=
  (canonicalA.sub b).eq_of_value (canonicalA.add (-b)) fun ν _ => by
    rw [value_sub, value_add, value_neg, sub_eq_add_neg]

theorem sub_same (canonicalA : a.Canonical) : a - a = LinearForm.zero :=
  (canonicalA.sub a).eq_of_value .zero fun ν _ => by
    rw [value_sub, value_zero, sub_self]

theorem scale_scale (canonicalA : a.Canonical) (s t : ℚ) :
    (a.scale s).scale t = a.scale (s * t) :=
  ((canonicalA.scale s).scale t).eq_of_value (canonicalA.scale (s * t)) fun ν _ => by
    rw [value_scale, value_scale, value_scale, mul_assoc]

theorem scale_add (canonicalA : a.Canonical) (b : LinearForm ℚ) (s : ℚ) :
    (a + b).scale s = a.scale s + b.scale s :=
  ((canonicalA.add b).scale s).eq_of_value ((canonicalA.scale s).add _) fun ν _ => by
    rw [value_scale, value_add, value_add, value_scale, value_scale, add_mul]

theorem add_scale (canonicalA : a.Canonical) (s t : ℚ) :
    a.scale (s + t) = a.scale s + a.scale t :=
  (canonicalA.scale (s + t)).eq_of_value ((canonicalA.scale s).add _) fun ν _ => by
    rw [value_scale, value_add, value_scale, value_scale, mul_add]

end Canonical

end LinearForm

namespace Atom

/-- Comparing two forms compares their values. -/
theorem holds_le_iff (ν : Key → ℚ) (a b : LinearForm ℚ) :
    (le a b).Holds ν ↔ a.value ν ≤ b.value ν := by
  rw [Holds, le, LinearForm.value_sub, sub_nonpos]

/-- The variables stand on the left and the constant on the right. -/
theorem holds_iff_rhs {ν : Key → ℚ} (one : ν .constant = 1) {atom : Atom ℚ}
    (ordered : atom.form.Ordered) :
    atom.Holds ν ↔ LinearForm.valueOf ν atom.form.variableTerms ≤ atom.rhs := by
  rw [Holds, LinearForm.value_eq ν ordered one, rhs_rat, add_comm, ← le_neg_iff_add_nonpos_right]

end Atom

namespace LinearForm

/-- Forms over exact numbers represent linear functions of the variables in one way each. A form
that the operations have made is canonical and has the value that they compute; two of them are
equal if and only if their values are, so the laws of numbers are laws of forms; and what a
constraint on two of them says is what it says about their values. -/
theorem composed_represents {a b : LinearForm ℚ} (composedA : a.Composed)
    (composedB : b.Composed) (c : LinearForm ℚ) :
    (a.terms.Pairwise (fun s t => s.1 < t.1) ∧ ∀ term ∈ a.terms, term.2 ≠ 0) ∧
    (∀ ν : Key → ℚ, ν .constant = 1 →
      (zero : LinearForm ℚ).value ν = 0 ∧
      (∀ s : ℚ, (ofScalar s).value ν = s) ∧
      (∀ key, (ofKey key : LinearForm ℚ).value ν = ν key) ∧
      (∀ key s, (a.addTerm key s).value ν = a.value ν + s * ν key) ∧
      (a + b).value ν = a.value ν + b.value ν ∧
      (a - b).value ν = a.value ν - b.value ν ∧
      (-a).value ν = -a.value ν ∧
      ∀ s, (a.scale s).value ν = a.value ν * s) ∧
    ((a == b) = true ↔ ∀ ν : Key → ℚ, ν .constant = 1 → a.value ν = b.value ν) ∧
    (a + b = b + a ∧ a + b + c = a + (b + c) ∧ a - b = a + -b ∧ a - a = zero ∧
      (∀ s t, (a.scale s).scale t = a.scale (s * t)) ∧
      (∀ s, (a + b).scale s = a.scale s + b.scale s) ∧
      ∀ s t, a.scale (s + t) = a.scale s + a.scale t) ∧
    (a.isConstant = true ↔
      ∀ ν μ : Key → ℚ, ν .constant = 1 → μ .constant = 1 → a.value ν = a.value μ) ∧
    Atom.le a b = Atom.ge b a ∧
    ∀ ν : Key → ℚ, ν .constant = 1 →
      ((Atom.le a b).Holds ν ↔ a.value ν ≤ b.value ν) ∧
      ((Atom.mk a).Holds ν ↔ valueOf ν a.variableTerms ≤ (Atom.mk a).rhs) := by
  have canonicalA := composedA.canonical
  have canonicalB := composedB.canonical
  refine ⟨⟨canonicalA.ordered, canonicalA.nonzero⟩, fun ν one => ?_,
    canonicalA.beq_iff_value canonicalB, ?_, canonicalA.isConstant_iff_value, rfl, fun ν one => ?_⟩
  · exact ⟨value_zero ν, fun s => value_ofScalar ν s one, value_ofKey ν, value_addTerm ν a,
      value_add ν a b, value_sub ν a b, value_neg ν a, value_scale ν a⟩
  · exact ⟨canonicalA.add_commutes canonicalB, canonicalA.add_associates b c,
      canonicalA.sub_eq_add_opposite b, canonicalA.sub_same, canonicalA.scale_scale,
      canonicalA.scale_add b, canonicalA.add_scale⟩
  · exact ⟨Atom.holds_le_iff ν a b, Atom.holds_iff_rhs one canonicalA.ordered⟩

/-- Half of an input without another variable, and that variable with a number: neither of them is
constant, they are different functions, and the variable cancels out of their sum. -/
theorem composed_represents_cancelling :
    let a : LinearForm ℚ := (ofKey (.input 0)).scale (1 / 2) - ofKey (.other 3)
    let b : LinearForm ℚ := ofKey (.other 3) + ofScalar 2
    a.Composed ∧ b.Composed ∧ (a + b).terms = [(.constant, 2), (.input 0, 1 / 2)] ∧
      (¬ ∀ ν : Key → ℚ, ν .constant = 1 → a.value ν = b.value ν) ∧
      (¬ ∀ ν μ : Key → ℚ, ν .constant = 1 → μ .constant = 1 → a.value ν = a.value μ) ∧
      a + b + -b = a + (b + -b) ∧
      ∀ ν : Key → ℚ, ν .constant = 1 → ((Atom.le a b).Holds ν ↔ a.value ν ≤ b.value ν) := by
  intro a b
  have composedA : a.Composed := .sub (.scale (.ofKey _) _) (.ofKey _)
  have composedB : b.Composed := .add (.ofKey _) (.ofScalar 2)
  obtain ⟨-, -, equal, ⟨-, associates, -⟩, constant, -, holds⟩ :=
    composed_represents composedA composedB (-b)
  have differ : (a == b) = false := by decide +kernel
  have varies : a.isConstant = false := by decide +kernel
  refine ⟨composedA, composedB, by decide +kernel, ?_, ?_, associates, fun ν one => (holds ν one).1⟩
  · rw [← equal, differ]
    exact Bool.false_ne_true
  · rw [← constant, varies]
    exact Bool.false_ne_true

end LinearForm

end NetSpec
