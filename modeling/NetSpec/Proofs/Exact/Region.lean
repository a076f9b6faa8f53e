import NetSpec.Proofs.Exact.LinearForm
import NetSpec.Proofs.Property.Role
import NetSpec.Proofs.Result

/-!
# What constraints ask of vectors

A box contains an input vector whose components lie between the ends of the intervals, and a
polytope contains an output vector that satisfies every row. `Role.Holds` says the same of a
single constraint, and `Atom.role_holds_iff` ties it to the constraint that the role was found
for: the form is at most zero. Dividing by the coefficient of an input is where the sign
matters, and `Interval.contains_restrict` covers both signs.
-/

namespace NetSpec

namespace End

/-- An end bounds a number from below. -/
def IsBelow : End ℚ → ℚ → Prop
  | bottom, _ => True
  | number a, x => a ≤ x
  | top, _ => False

/-- An end bounds a number from above. -/
def IsAbove : End ℚ → ℚ → Prop
  | bottom, _ => False
  | number a, x => x ≤ a
  | top, _ => True

@[simp] theorem ofScalar_rat (a : ℚ) : (ofScalar a : End ℚ) = number a := rfl

/-- Raising a lower end to a number excludes what is below the number. -/
theorem isBelow_raise (e : End ℚ) (a x : ℚ) :
    (if e.less (number a) then number a else e).IsBelow x ↔ e.IsBelow x ∧ a ≤ x := by
  cases e with
  | bottom => simp [less, IsBelow]
  | top => simp [less, IsBelow]
  | number b =>
    by_cases below : b < a
    · simp only [less, Scalar.less_rat, below, decide_true, if_true, IsBelow]
      exact ⟨fun h => ⟨below.le.trans h, h⟩, fun h => h.2⟩
    · simp only [less, Scalar.less_rat, below, decide_false, IsBelow]
      exact ⟨fun h => ⟨h, (not_lt.mp below).trans h⟩, fun h => h.1⟩

/-- Lowering an upper end to a number excludes what is above the number. -/
theorem isAbove_lower (e : End ℚ) (a x : ℚ) :
    (if (number a).less e then number a else e).IsAbove x ↔ e.IsAbove x ∧ x ≤ a := by
  cases e with
  | bottom => simp [less, IsAbove]
  | top => simp [less, IsAbove]
  | number b =>
    by_cases below : a < b
    · simp only [less, Scalar.less_rat, below, decide_true, if_true, IsAbove]
      exact ⟨fun h => ⟨h.trans below.le, h⟩, fun h => h.2⟩
    · simp only [less, Scalar.less_rat, below, decide_false, IsAbove]
      exact ⟨fun h => ⟨h, h.trans (not_lt.mp below)⟩, fun h => h.1⟩

instance : LawfulBEq (End ℚ) where
  rfl {e} := by
    cases e with
    | bottom => rfl
    | number a => exact beq_self_eq_true a
    | top => rfl
  eq_of_beq {a b} same := by
    cases a <;> cases b <;> simp_all [BEq.beq, beq]

end End

namespace Interval

instance : LawfulBEq (Interval ℚ) where
  rfl {i} := by
    show (i.low == i.low && i.high == i.high) = true
    simp
  eq_of_beq {a b} same := by
    obtain ⟨low, high⟩ : (a.low == b.low) = true ∧ (a.high == b.high) = true := by
      simpa using (show (a.low == b.low && a.high == b.high) = true from same)
    cases a
    cases b
    rw [Interval.mk.injEq]
    exact ⟨eq_of_beq low, eq_of_beq high⟩

/-- A number lies between the ends. -/
def Contains (i : Interval ℚ) (x : ℚ) : Prop := i.low.IsBelow x ∧ i.high.IsAbove x

theorem contains_unbounded (x : ℚ) : (unbounded : Interval ℚ).Contains x := ⟨trivial, trivial⟩

/-- The value at which a constraint bounds an input is where it turns to equality. -/
theorem bound_rat (c k : ℚ) : bound c k = -k / c := by
  simp only [bound]
  split
  next zero =>
    have zero : k = 0 := by simpa using zero
    simp [zero]
  next => rfl

/-- A restricted interval contains the numbers that satisfy the constraint as well. -/
theorem contains_restrict (i : Interval ℚ) {c : ℚ} (nonzero : c ≠ 0) (k x : ℚ) :
    (i.restrict c k).Contains x ↔ i.Contains x ∧ c * x + k ≤ 0 := by
  simp only [restrict]
  rw [bound_rat, End.ofScalar_rat]
  by_cases positive : 0 < c
  · have high : x ≤ -k / c ↔ c * x + k ≤ 0 := by
      rw [le_div_iff₀ positive]
      constructor <;> intro h <;> linarith
    have capped : (i.capHigh (.number (-k / c))).Contains x ↔
        i.low.IsBelow x ∧ i.high.IsAbove x ∧ x ≤ -k / c := by
      rw [← End.isAbove_lower]
      simp only [capHigh]
      split <;> rfl
    simp only [Scalar.less_rat, Scalar.zero_rat, positive, decide_true, if_true]
    rw [capped, high, ← and_assoc]
    rfl
  · have negative : c < 0 := lt_of_le_of_ne (not_lt.mp positive) nonzero
    have low : -k / c ≤ x ↔ c * x + k ≤ 0 := by
      rw [div_le_iff_of_neg negative]
      constructor <;> intro h <;> linarith
    have raised : (i.capLow (.number (-k / c))).Contains x ↔
        (i.low.IsBelow x ∧ -k / c ≤ x) ∧ i.high.IsAbove x := by
      rw [← End.isBelow_raise]
      simp only [capLow]
      split <;> rfl
    simp only [Scalar.less_rat, Scalar.zero_rat, positive, decide_false]
    rw [if_neg Bool.false_ne_true, raised, low, and_right_comm]
    rfl

end Interval

namespace Box

/-- Every component of a vector lies in its interval. -/
def Contains (box : Box ℚ) (x : List ℚ) : Prop := List.Forall₂ Interval.Contains box.intervals x

theorem contains_unbounded (x : List ℚ) : (unbounded x.length : Box ℚ).Contains x := by
  simp only [Contains, unbounded]
  induction x with
  | nil => exact .nil
  | cons a x ih => exact .cons (Interval.contains_unbounded a) ih

/-- Replacing one interval asks the corresponding component. -/
theorem contains_modify {P : ℚ → Prop} {f : Interval ℚ → Interval ℚ}
    (meets : ∀ i a, (f i).Contains a ↔ i.Contains a ∧ P a) {intervals : List (Interval ℚ)}
    {x : List ℚ} {index : Nat} (bound : index < x.length) :
    List.Forall₂ Interval.Contains (intervals.modify index f) x ↔
      List.Forall₂ Interval.Contains intervals x ∧ P x[index] := by
  induction intervals generalizing x index with
  | nil =>
    cases x with
    | nil => simp at bound
    | cons a x => simp
  | cons i intervals ih =>
    cases x with
    | nil => simp at bound
    | cons a x =>
      cases index with
      | zero =>
        simp only [List.modify_zero_cons, List.forall₂_cons, meets, List.getElem_cons_zero]
        exact and_right_comm
      | succ index =>
        have inside : index < x.length := by simpa using bound
        simp only [List.modify_succ_cons, List.forall₂_cons, ih inside,
          List.getElem_cons_succ, and_assoc]

theorem contains_restrict (box : Box ℚ) {x : List ℚ} {index : Nat} (bound : index < x.length)
    {c : ℚ} (nonzero : c ≠ 0) (k : ℚ) :
    (box.restrict index c k).Contains x ↔ box.Contains x ∧ c * x[index] + k ≤ 0 :=
  contains_modify (P := fun a => c * a + k ≤ 0)
    (fun i a => i.contains_restrict nonzero k a) bound

theorem eq_of_beq {a b : Box ℚ} (same : (a == b) = true) : a = b := by
  cases a
  cases b
  exact congrArg Box.mk (LawfulBEq.eq_of_beq (α := List (Interval ℚ)) same)

end Box

/-- The outputs times the coefficients are at most the right-hand side. -/
def Row.Admits (row : Row ℚ) (y : List ℚ) : Prop :=
  (List.zipWith (· * ·) row.coefficients y).sum ≤ row.rhs

/-- An output vector satisfies every row. -/
def Polytope.Contains (polytope : Polytope ℚ) (y : List ℚ) : Prop :=
  ∀ row ∈ polytope.rows, row.Admits y

namespace Role

/-- A bound is on an input that there is, and has a coefficient to divide by. -/
def Proper (inputSize : Nat) : Role ℚ → Prop
  | bound index c _ => index < inputSize ∧ c ≠ 0
  | _ => True

/-- What a role asks of the input vector. -/
def Bounds (x : List ℚ) : Role ℚ → Prop
  | bound index c k => ∃ inside : index < x.length, c * x[index] + k ≤ 0
  | _ => True

/-- What a role asks: of itself, of the input vector and of the output vector. -/
structure Holds (x y : List ℚ) (role : Role ℚ) : Prop where
  consistent : role.isContradiction = false
  bounds : role.Bounds x
  admits : ∀ row ∈ role.row?, row.Admits y

theorem holds_constant_iff {x y : List ℚ} {k : ℚ} : (constant k).Holds x y ↔ k ≤ 0 := by
  constructor
  · intro h
    simpa [isContradiction] using h.consistent
  · intro h
    exact ⟨by simpa [isContradiction] using h, trivial, by simp [row?]⟩

theorem holds_bound_iff {x y : List ℚ} {index : Nat} (inside : index < x.length) {c k : ℚ} :
    (bound index c k).Holds x y ↔ c * x[index] + k ≤ 0 := by
  constructor
  · intro h
    obtain ⟨_, below⟩ := h.bounds
    exact below
  · intro h
    exact ⟨rfl, ⟨inside, h⟩, by simp [row?]⟩

theorem holds_row_iff {x y : List ℚ} {r : Row ℚ} : (row r).Holds x y ↔ r.Admits y := by
  constructor
  · intro h
    exact h.admits r rfl
  · intro h
    exact ⟨rfl, trivial, by simpa [row?] using h⟩

/-- Restricting a box by a role asks the input vector what the role asks of it. -/
theorem contains_restrict {x : List ℚ} {role : Role ℚ} (proper : role.Proper x.length)
    (box : Box ℚ) : (role.restrict box).Contains x ↔ box.Contains x ∧ role.Bounds x := by
  cases role with
  | constant k => simp [restrict, Bounds]
  | row r => simp [restrict, Bounds]
  | bound index c k =>
    obtain ⟨inside, nonzero⟩ := proper
    simp only [restrict, Bounds, inside, exists_true_left]
    exact box.contains_restrict inside nonzero k

theorem contains_foldl_restrict {x : List ℚ} {roles : List (Role ℚ)}
    (proper : ∀ role ∈ roles, role.Proper x.length) (box : Box ℚ) :
    (roles.foldl restrict box).Contains x ↔ box.Contains x ∧ ∀ role ∈ roles, role.Bounds x := by
  induction roles generalizing box with
  | nil => simp
  | cons role roles ih =>
    obtain ⟨first, others⟩ := List.forall_mem_cons.mp proper
    rw [List.foldl_cons, ih others, contains_restrict first, List.forall_mem_cons, and_assoc]

end Role

namespace LinearForm

/-- Terms of outputs have the value of the row of their coefficients. -/
theorem sum_coefficients {terms : List (Key × ℚ)} {size : Nat} (ν : Key → ℚ)
    (ordered : terms.Pairwise fun a b => a.1 < b.1)
    (outputs : ∀ term ∈ terms, ∃ j < size, term.1 = .output j) :
    ∑ j ∈ Finset.range size, (terms.lookup (.output j)).getD 0 * ν (.output j) =
      valueOf ν terms := by
  induction terms with
  | nil => simp
  | cons term terms ih =>
    obtain ⟨key, c⟩ := term
    rw [List.pairwise_cons] at ordered
    obtain ⟨⟨j, inside, rfl⟩, others⟩ := List.forall_mem_cons.mp outputs
    have absent : terms.lookup (.output j) = none := lookup_of_below ordered.1
    have split (i : Nat) :
        (((Key.output j, c) :: terms).lookup (.output i)).getD 0 * ν (.output i) =
          (if i = j then c * ν (.output j) else 0) +
            (terms.lookup (.output i)).getD 0 * ν (.output i) := by
      by_cases same : i = j
      · simp [same, absent]
      · have differ : (Key.output i == Key.output j) = false := by simpa using same
        simp [same, List.lookup_cons, differ]
    simp only [split, Finset.sum_add_distrib, ih ordered.2 others, valueOf_cons,
      Finset.sum_ite_eq', Finset.mem_range, if_pos inside]

end LinearForm

/-- A valuation of keys that reads the components of an input and an output vector. -/
structure Reads (ν : Key → ℚ) (x y : List ℚ) : Prop where
  constant : ν .constant = 1
  input : ∀ i (inside : i < x.length), ν (.input i) = x[i]
  output : ∀ j (inside : j < y.length), ν (.output j) = y[j]

namespace Atom

/-- The constraint is true under a valuation of its keys. -/
def Holds (ν : Key → ℚ) (atom : Atom ℚ) : Prop := atom.form.value ν ≤ 0

theorem rhs_rat (atom : Atom ℚ) : atom.rhs = -atom.form.constantTerm := by
  simp only [rhs]
  split
  next zero =>
    have zero : atom.form.constantTerm = 0 := eq_of_beq zero
    simp [zero]
  next => rfl

theorem toRow_admits_iff {ν : Key → ℚ} {x y : List ℚ} (reads : Reads ν x y) {atom : Atom ℚ}
    (ordered : atom.form.Ordered)
    (outputs : ∀ term ∈ atom.form.variableTerms, ∃ j < y.length, term.1 = .output j) :
    (atom.toRow y.length).Admits y ↔ atom.Holds ν := by
  have vector : y = (List.range y.length).map fun j => ν (.output j) := by
    refine List.ext_getElem (by simp) fun j inside _ => ?_
    simpa using (reads.output j inside).symm
  have coefficients : ∀ j, atom.form.coefficient (.output j) =
      (atom.form.variableTerms.lookup (.output j)).getD 0 := by
    intro j
    rcases LinearForm.terms_eq ordered with ⟨terms, _⟩ | ⟨k, terms, _⟩
    · rw [← terms]
      rfl
    · rw [LinearForm.coefficient, LinearForm.find?, terms]
      rfl
  have increasing : atom.form.variableTerms.Pairwise fun a b => a.1 < b.1 := ordered.filter _
  have dot : (List.zipWith (· * ·) (atom.toRow y.length).coefficients y).sum =
      LinearForm.valueOf ν atom.form.variableTerms := by
    rw [← LinearForm.sum_coefficients ν increasing outputs]
    conv_lhs => rw [vector]
    simp only [toRow, List.zipWith_map, List.zipWith_self, coefficients, List.length_map,
      List.length_range]
    rfl
  rw [Row.Admits, dot, Holds, LinearForm.value_eq ν ordered reads.constant]
  show _ ≤ atom.rhs ↔ _
  rw [rhs_rat]
  constructor <;> intro h <;> linarith

/-- A role asks of the vectors what the constraint says about its variables. -/
theorem role_holds_iff {ν : Key → ℚ} {x y : List ℚ} (reads : Reads ν x y) {atom : Atom ℚ}
    (canonical : atom.form.Canonical) {dims : Dimensions} (inputs : x.length = dims.inputSize)
    (outputs : y.length = dims.outputSize) {role : Role ℚ} (found : atom.role dims = .ok role) :
    role.Proper x.length ∧ (role.Holds x y ↔ atom.Holds ν) := by
  have value := LinearForm.value_eq ν canonical.ordered reads.constant
  rcases atom.role_cases found with ⟨none, rfl⟩ | ⟨i, keys, inside, rfl⟩ | ⟨rows, rfl⟩
  · refine ⟨trivial, ?_⟩
    rw [Role.holds_constant_iff, Holds, value, none]
    simp
  · obtain ⟨⟨key, c⟩, single, rfl⟩ := List.map_eq_singleton_iff.mp keys
    have member : (Key.input i, c) ∈ atom.form.terms :=
      List.mem_of_mem_filter (by rw [← LinearForm.variableTerms, single]; exact List.mem_cons_self)
    have coefficient : atom.form.coefficient (.input i) = c := by
      rw [LinearForm.coefficient, (LinearForm.find?_eq_some_iff canonical.ordered).mpr member]
      rfl
    have here : i < x.length := inputs ▸ inside
    rw [coefficient]
    refine ⟨⟨here, canonical.nonzero _ member⟩, ?_⟩
    rw [Role.holds_bound_iff here, Holds, value, single, LinearForm.valueOf_cons,
      reads.input i here, LinearForm.valueOf_nil, add_zero, add_comm]
  · rw [← outputs] at rows ⊢
    exact ⟨trivial, Role.holds_row_iff.trans (toRow_admits_iff reads canonical.ordered rows)⟩

end Atom

end NetSpec
