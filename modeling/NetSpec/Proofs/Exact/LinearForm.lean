import NetSpec.Proofs.Constraint.Coefficients

/-!
# Linear forms over exact numbers

Rational numbers are scalars whose operations do not round. None of them stands for the lack
of a bound. An integer literal is its integer, and a finite real literal is the rational
number that its binary64 magnitude and sign stand for.

Over rational numbers a form has a value under every valuation of its keys, and each
operation on forms is the operation on their values. The value does not depend on the order
of terms. What does is `LinearForm.Canonical`: terms in order and none with coefficient zero.
Every operation keeps it, and it is what makes the variables of a form the ones that its
value depends on.
-/

namespace NetSpec

namespace Binary64

/-- The rational number of a finite binary64 number. -/
def toRat (x : Float) : ℚ :=
  if isFinite x then (if isNegative x then -1 else 1) * (units (code x) : ℚ) / (unitsInOne : ℚ)
  else 0

end Binary64

instance : Scalar ℚ where
  zero := 0
  one := 1
  less a b := a < b
  isBottom _ := false
  isTop _ := false
  ofInt n := n
  ofReal := Binary64.toRat

@[simp] theorem Scalar.zero_rat : (Scalar.zero : ℚ) = 0 := rfl

@[simp] theorem Scalar.one_rat : (Scalar.one : ℚ) = 1 := rfl

@[simp] theorem Scalar.less_rat (a b : ℚ) : Scalar.less a b = decide (a < b) := rfl

namespace LinearForm

/-- The value of terms under a valuation of their keys. -/
def valueOf (ν : Key → ℚ) (terms : List (Key × ℚ)) : ℚ :=
  (terms.map fun (key, c) => c * ν key).sum

/-- The value of a form under a valuation of its keys. -/
def value (ν : Key → ℚ) (form : LinearForm ℚ) : ℚ := valueOf ν form.terms

variable (ν : Key → ℚ)

@[simp] theorem valueOf_nil : valueOf ν [] = 0 := rfl

@[simp] theorem valueOf_cons (key : Key) (c : ℚ) (terms : List (Key × ℚ)) :
    valueOf ν ((key, c) :: terms) = c * ν key + valueOf ν terms := rfl

/-- Dropping a term with coefficient zero loses nothing. -/
theorem valueOf_consNonzero (key : Key) (c : ℚ) (terms : List (Key × ℚ)) :
    valueOf ν (consNonzero key c terms) = c * ν key + valueOf ν terms := by
  simp only [consNonzero]
  split
  next zero =>
    have zero : c = 0 := eq_of_beq zero
    rw [zero]
    ring
  next => rfl

theorem valueOf_insert (key : Key) (c : ℚ) (terms : List (Key × ℚ)) :
    valueOf ν (insert key c terms) = c * ν key + valueOf ν terms := by
  induction terms with
  | nil =>
    rw [insert, valueOf_consNonzero]
    simp
  | cons term terms ih =>
    obtain ⟨k, d⟩ := term
    simp only [insert]
    split
    next here =>
      rw [valueOf_consNonzero, valueOf_cons, here]
      ring
    next =>
      split
      · rw [valueOf_consNonzero]
        simp
      · rw [valueOf_cons, valueOf_cons, ih]
        ring

theorem value_addTerm (form : LinearForm ℚ) (key : Key) (c : ℚ) :
    (form.addTerm key c).value ν = form.value ν + c * ν key := by
  rw [value, addTerm, valueOf_insert, value]
  ring

theorem value_addTerms (f : ℚ → ℚ) (form : LinearForm ℚ) (terms : List (Key × ℚ)) :
    (form.addTerms f terms).value ν =
      form.value ν + valueOf ν (terms.map fun (key, c) => (key, f c)) := by
  induction terms generalizing form with
  | nil => simp [addTerms]
  | cons term terms ih =>
    have step : form.addTerms f (term :: terms) =
        (form.addTerm term.1 (f term.2)).addTerms f terms := rfl
    rw [step, ih, value_addTerm, List.map_cons, valueOf_cons]
    ring

theorem valueOf_map_mul (factor : ℚ) (terms : List (Key × ℚ)) :
    valueOf ν (terms.map fun (key, c) => (key, c * factor)) = valueOf ν terms * factor := by
  induction terms with
  | nil => simp
  | cons term terms ih =>
    obtain ⟨k, d⟩ := term
    rw [List.map_cons, valueOf_cons, valueOf_cons, ih]
    ring

theorem valueOf_map_neg (terms : List (Key × ℚ)) :
    valueOf ν (terms.map fun (key, c) => (key, -c)) = -valueOf ν terms := by
  have opposite := valueOf_map_mul ν (-1) terms
  simpa using opposite

@[simp] theorem value_zero : (zero : LinearForm ℚ).value ν = 0 := rfl

theorem value_add (a b : LinearForm ℚ) : (a + b).value ν = a.value ν + b.value ν := by
  rw [add_eq, value_addTerms]
  simp [value]

theorem value_sub (a b : LinearForm ℚ) : (a - b).value ν = a.value ν - b.value ν := by
  rw [sub_eq, value_addTerms]
  exact (congrArg (a.value ν + ·) (valueOf_map_neg ν b.terms)).trans (sub_eq_add_neg ..).symm

theorem value_neg (a : LinearForm ℚ) : (-a).value ν = -a.value ν :=
  valueOf_map_neg ν a.terms

theorem value_scale (a : LinearForm ℚ) (factor : ℚ) :
    (a.scale factor).value ν = a.value ν * factor := by
  simp only [scale]
  split
  next zero =>
    have zero : factor = 0 := eq_of_beq zero
    simp [zero]
  next => exact valueOf_map_mul ν factor a.terms

theorem value_ofKey (key : Key) : (ofKey key : LinearForm ℚ).value ν = ν key := by
  rw [ofKey, value_addTerm]
  simp

theorem value_ofScalar (c : ℚ) (one : ν .constant = 1) : (ofScalar c).value ν = c := by
  rw [ofScalar, value_addTerm, one]
  simp

/-- Terms in order, none of them with coefficient zero. -/
structure Canonical (form : LinearForm ℚ) : Prop where
  ordered : form.Ordered
  nonzero : ∀ term ∈ form.terms, term.2 ≠ 0

namespace Canonical

theorem zero : (LinearForm.zero : LinearForm ℚ).Canonical where
  ordered := ordered_zero
  nonzero := by simp [LinearForm.zero]

/-- An inserted term is dropped when its coefficient is zero. -/
theorem nonzero_insert {terms : List (Key × ℚ)} (nonzero : ∀ term ∈ terms, term.2 ≠ 0)
    (key : Key) (c : ℚ) : ∀ term ∈ insert key c terms, term.2 ≠ 0 := by
  have kept_iff (d : ℚ) : (d == Scalar.zero) = false ↔ d ≠ 0 := beq_eq_false_iff_ne
  have each := forall_insert_ne_zero (fun term member => (kept_iff _).mpr (nonzero term member))
  exact fun term member => (kept_iff _).mp (each key c term member)

theorem addTerm {form : LinearForm ℚ} (h : form.Canonical) (key : Key) (c : ℚ) :
    (form.addTerm key c).Canonical where
  ordered := h.ordered.addTerm key c
  nonzero := nonzero_insert h.nonzero key c

theorem addTerms {form : LinearForm ℚ} (h : form.Canonical) (f : ℚ → ℚ)
    (terms : List (Key × ℚ)) : (form.addTerms f terms).Canonical := by
  induction terms generalizing form with
  | nil => exact h
  | cons term terms ih => exact ih (h.addTerm term.1 (f term.2))

theorem ofScalar (c : ℚ) : (LinearForm.ofScalar c).Canonical := zero.addTerm .constant c

theorem ofKey (key : Key) : (LinearForm.ofKey key : LinearForm ℚ).Canonical :=
  zero.addTerm key Scalar.one

theorem add {a : LinearForm ℚ} (h : a.Canonical) (b : LinearForm ℚ) : (a + b).Canonical :=
  h.addTerms id b.terms

theorem sub {a : LinearForm ℚ} (h : a.Canonical) (b : LinearForm ℚ) : (a - b).Canonical :=
  h.addTerms (-·) b.terms

/-- Changing coefficients keeps a form canonical if none of them becomes zero. -/
theorem map {form : LinearForm ℚ} (h : form.Canonical) {f : ℚ → ℚ}
    (keeps : ∀ c, c ≠ 0 → f c ≠ 0) :
    (⟨form.terms.map fun (key, c) => (key, f c)⟩ : LinearForm ℚ).Canonical where
  ordered := h.ordered.map f
  nonzero := by
    intro term member
    obtain ⟨old, inForm, rfl⟩ := List.mem_map.mp member
    exact keeps _ (h.nonzero old inForm)

theorem neg {a : LinearForm ℚ} (h : a.Canonical) : (-a).Canonical :=
  h.map fun _ => neg_ne_zero.mpr

theorem scale {a : LinearForm ℚ} (h : a.Canonical) (factor : ℚ) :
    (a.scale factor).Canonical := by
  simp only [LinearForm.scale]
  split
  next => exact zero
  next nonzero =>
    exact h.map fun c kept => mul_ne_zero kept (ne_of_beq_false (by simpa using nonzero))

end Canonical

/-- The value of a form is its constant and the value of its variables. -/
theorem value_eq {form : LinearForm ℚ} (ordered : form.Ordered) (one : ν .constant = 1) :
    form.value ν = form.constantTerm + valueOf ν form.variableTerms := by
  rcases terms_eq ordered with ⟨terms, absent⟩ | ⟨k, terms, found⟩
  · rw [value, ← terms, constantTerm, coefficient, absent]
    simp
  · rw [value, terms, constantTerm, coefficient, found, valueOf_cons, one]
    simp

theorem value_of_isConstant {form : LinearForm ℚ} (ordered : form.Ordered)
    (one : ν .constant = 1) (constant : form.isConstant = true) :
    form.value ν = form.constantTerm := by
  rw [value_eq ν ordered one, List.isEmpty_iff.mp constant]
  simp

end LinearForm

end NetSpec
