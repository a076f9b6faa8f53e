import NetSpec.Proofs.Compiler.Evaluation
import NetSpec.Proofs.Constraint.Coefficients

/-!
# Evaluation under other numbers for names

The numbers of other names decide in which order the terms of a form stand, and nothing else.
Two forms are `Renumbered` if they have the same coefficients once the keys of the one are
renumbered to those of the other. Every operation on forms keeps this, because it computes a
coefficient from coefficients of the same key. `Term.evaluate_renumbered` says so of
evaluation: it fails for the same cause under both numberings, or succeeds under both, and the
values differ by the numbers only. This holds for any scalars, however they round.
-/

namespace NetSpec

/-- The key with another number, if it is that of another name. -/
def Key.renumber (σ : Equiv.Perm Nat) : Key → Key
  | other id => other (σ id)
  | key => key

namespace Key

variable (σ : Equiv.Perm Nat)

@[simp] theorem renumber_symm_renumber (key : Key) : (key.renumber σ).renumber σ.symm = key := by
  cases key <;> simp [renumber]

@[simp] theorem renumber_renumber_symm (key : Key) : (key.renumber σ.symm).renumber σ = key := by
  cases key <;> simp [renumber]

theorem renumber_inj {a b : Key} : a.renumber σ = b.renumber σ ↔ a = b := by
  constructor
  · intro same
    rw [← renumber_symm_renumber σ a, same, renumber_symm_renumber]
  · intro same
    rw [same]

theorem renumber_eq_constant_iff {key : Key} : key.renumber σ = .constant ↔ key = .constant := by
  cases key <;> simp [renumber]

end Key

variable {α : Type} {σ : Equiv.Perm Nat}

namespace LinearForm

/-- The same coefficients, at keys with other numbers. -/
structure Renumbered (σ : Equiv.Perm Nat) (a b : LinearForm α) : Prop where
  orderedLeft : a.Ordered
  orderedRight : b.Ordered
  find? : ∀ key, b.find? (key.renumber σ) = a.find? key

namespace Renumbered

theorem isConstant {a b : LinearForm α} (h : a.Renumbered σ b) : a.isConstant = b.isConstant := by
  rw [Bool.eq_iff_iff, isConstant_iff h.orderedLeft, isConstant_iff h.orderedRight]
  constructor
  · intro absent key variable'
    rw [← Key.renumber_renumber_symm σ key, h.find?]
    refine absent _ fun constant => variable' ?_
    exact (Key.renumber_eq_constant_iff σ.symm).mp constant
  · intro absent key variable'
    rw [← h.find?]
    exact absent _ fun constant => variable' ((Key.renumber_eq_constant_iff σ).mp constant)

theorem zero : (LinearForm.zero : LinearForm α).Renumbered σ .zero :=
  ⟨ordered_zero, ordered_zero, fun _ => rfl⟩

variable [Scalar α] {a b c d : LinearForm α}

theorem coefficient (h : a.Renumbered σ b) (key : Key) :
    b.coefficient (key.renumber σ) = a.coefficient key := by
  rw [LinearForm.coefficient, h.find?, LinearForm.coefficient]

theorem constantTerm (h : a.Renumbered σ b) : b.constantTerm = a.constantTerm :=
  h.coefficient .constant

theorem addTerm (h : a.Renumbered σ b) (key : Key) (value : α) :
    (a.addTerm key value).Renumbered σ (b.addTerm (key.renumber σ) value) where
  orderedLeft := h.orderedLeft.addTerm key value
  orderedRight := h.orderedRight.addTerm _ value
  find? k := by
    rw [find?_addTerm h.orderedLeft, find?_addTerm h.orderedRight, h.find?, h.coefficient]
    simp only [Key.renumber_inj]

theorem ofScalar (value : α) : (LinearForm.ofScalar value).Renumbered σ (.ofScalar value) :=
  zero.addTerm .constant value

theorem ofKey (key : Key) :
    (LinearForm.ofKey key : LinearForm α).Renumbered σ (.ofKey (key.renumber σ)) :=
  zero.addTerm key Scalar.one

theorem add (h : a.Renumbered σ b) (h' : c.Renumbered σ d) : (a + c).Renumbered σ (b + d) where
  orderedLeft := h.orderedLeft.add c
  orderedRight := h.orderedRight.add d
  find? key := by
    rw [find?_add h.orderedLeft h'.orderedLeft, find?_add h.orderedRight h'.orderedRight, h.find?,
      h'.find?, h.coefficient]

theorem sub (h : a.Renumbered σ b) (h' : c.Renumbered σ d) : (a - c).Renumbered σ (b - d) where
  orderedLeft := h.orderedLeft.sub c
  orderedRight := h.orderedRight.sub d
  find? key := by
    rw [find?_sub h.orderedLeft h'.orderedLeft, find?_sub h.orderedRight h'.orderedRight, h.find?,
      h'.find?, h.coefficient]

theorem neg (h : a.Renumbered σ b) : (-a).Renumbered σ (-b) where
  orderedLeft := h.orderedLeft.neg
  orderedRight := h.orderedRight.neg
  find? key := by rw [find?_neg, find?_neg, h.find?]

theorem scale (h : a.Renumbered σ b) (factor : α) :
    (a.scale factor).Renumbered σ (b.scale factor) where
  orderedLeft := h.orderedLeft.scale factor
  orderedRight := h.orderedRight.scale factor
  find? key := by rw [find?_scale, find?_scale, h.find?]

variable {forms forms' : List (LinearForm α)}

omit [Scalar α] in
theorem foldl {f : LinearForm α → LinearForm α → LinearForm α}
    (keeps : ∀ {a b c d}, a.Renumbered σ b → c.Renumbered σ d → (f a c).Renumbered σ (f b d))
    (h : a.Renumbered σ b) (each : List.Forall₂ (Renumbered σ) forms forms') :
    (forms.foldl f a).Renumbered σ (forms'.foldl f b) := by
  induction each generalizing a b with
  | nil => exact h
  | cons first _ ih => exact ih (keeps h first)

theorem sum (each : List.Forall₂ (Renumbered σ) forms forms') :
    (LinearForm.sum forms).Renumbered σ (.sum forms') :=
  foldl add zero each

theorem difference (each : List.Forall₂ (Renumbered σ) forms forms') :
    (LinearForm.difference forms).Renumbered σ (.difference forms') := by
  cases each with
  | nil => exact zero.neg
  | cons first others =>
    cases others with
    | nil => exact first.neg
    | cons second others => exact foldl sub first (.cons second others)

theorem factor (each : List.Forall₂ (Renumbered σ) forms forms') :
    LinearForm.factor forms = LinearForm.factor forms' := by
  simp only [LinearForm.factor]
  generalize (Scalar.one : α) = product
  induction each generalizing product with
  | nil => rfl
  | cons first _ ih =>
    rw [List.filter_cons, List.filter_cons, first.isConstant]
    split
    · rw [List.foldl_cons, List.foldl_cons, ← first.constantTerm]
      exact ih _
    · exact ih product

theorem product (each : List.Forall₂ (Renumbered σ) forms forms') :
    Except.Agree Eq (Renumbered σ) (LinearForm.product forms) (LinearForm.product forms') := by
  have rest : List.Forall₂ (Renumbered σ) (forms.filter (!·.isConstant))
      (forms'.filter (!·.isConstant)) := by
    refine List.rel_filter ?_ each
    intro f g h
    simp [h.isConstant]
  simp only [LinearForm.product]
  rw [factor each]
  generalize forms.filter (!·.isConstant) = nonconstant at rest ⊢
  generalize forms'.filter (!·.isConstant) = nonconstant' at rest ⊢
  cases rest with
  | nil => exact .ok (ofScalar _)
  | cons first others =>
    cases others with
    | nil => exact .ok (first.scale _)
    | cons => exact .error rfl

end Renumbered

end LinearForm

/-- Constraints on the same coefficients, at keys with other numbers. -/
def Atom.Renumbered (σ : Equiv.Perm Nat) (a b : Atom α) : Prop := a.form.Renumbered σ b.form

/-- The same constraints in the same order, but for the numbers. -/
abbrev Conjunction.Renumbered (σ : Equiv.Perm Nat) : Conjunction α → Conjunction α → Prop :=
  List.Forall₂ (Atom.Renumbered σ)

/-- The same alternatives in the same order, but for the numbers. -/
abbrev Disjunction.Renumbered (σ : Equiv.Perm Nat) : Disjunction α → Disjunction α → Prop :=
  List.Forall₂ (Conjunction.Renumbered σ)

/-- Values that differ by the numbers of keys only. -/
inductive Value.Renumbered (σ : Equiv.Perm Nat) : Value α → Value α → Prop where
  | expression {a b : LinearForm α} (h : a.Renumbered σ b) :
    Renumbered σ (.expression a) (.expression b)
  | atom {a b : Atom α} (h : a.Renumbered σ b) : Renumbered σ (.atom a) (.atom b)
  | conjunction {rows rows' : Conjunction α} (h : rows.Renumbered σ rows') :
    Renumbered σ (.conjunction rows) (.conjunction rows')
  | disjunction {alternatives alternatives' : Disjunction α}
    (h : alternatives.Renumbered σ alternatives') :
    Renumbered σ (.disjunction alternatives) (.disjunction alternatives')

/-- Assertions that differ by the numbers of keys only. -/
inductive Assertion.Renumbered (σ : Equiv.Perm Nat) : Assertion α → Assertion α → Prop where
  | all {rows rows' : Conjunction α} (h : rows.Renumbered σ rows') :
    Renumbered σ (.all rows) (.all rows')
  | any {alternatives alternatives' : Disjunction α}
    (h : alternatives.Renumbered σ alternatives') :
    Renumbered σ (.any alternatives) (.any alternatives')

namespace Value.Renumbered

variable {a b : Value α}

theorem toForm (h : a.Renumbered σ b) (function : String) :
    Except.Agree Eq (LinearForm.Renumbered σ) (a.toForm function) (b.toForm function) := by
  cases h with
  | expression h => exact .ok h
  | atom => exact .error rfl
  | conjunction => exact .error rfl
  | disjunction => exact .error rfl

theorem toRows (h : a.Renumbered σ b) :
    Except.Agree Eq (Conjunction.Renumbered σ) a.toRows b.toRows := by
  cases h with
  | expression h => exact .error rfl
  | atom h => exact .ok (.cons h .nil)
  | conjunction h => exact .ok h
  | disjunction h =>
    cases h with
    | nil => exact .error rfl
    | cons first others =>
      cases others with
      | nil => exact .ok first
      | cons => exact .error rfl

theorem toAlternatives (h : a.Renumbered σ b) :
    Except.Agree Eq (Disjunction.Renumbered σ) a.toAlternatives b.toAlternatives := by
  cases h with
  | expression h => exact .error rfl
  | atom h => exact .ok (.cons (.cons h .nil) .nil)
  | conjunction h => exact .ok (.cons h .nil)
  | disjunction h => exact .ok h

theorem assertion (h : a.Renumbered σ b) :
    Except.Agree Eq (Assertion.Renumbered σ) a.assertion b.assertion := by
  cases h with
  | expression h => exact .error rfl
  | atom h => exact .ok (.all (.cons h .nil))
  | conjunction h => exact .ok (.all h)
  | disjunction h => exact .ok (.any h)

end Value.Renumbered

variable [Scalar α] {values values' : List (Value α)}

omit [Scalar α] in
theorem Operator.compare_renumbered {op : Operator}
    {relation : LinearForm α → LinearForm α → Atom α}
    (keeps : ∀ {a b c d : LinearForm α}, a.Renumbered σ b → c.Renumbered σ d →
      (relation a c).Renumbered σ (relation b d))
    (each : List.Forall₂ (Value.Renumbered σ) values values') :
    Except.Agree Eq (Value.Renumbered σ) (op.compare relation values)
      (op.compare relation values') := by
  refine (Except.Agree.mapM (fun _ _ h => h.toForm op.name) each).bind fun forms forms' h => ?_
  have length := h.length_eq
  cases h with
  | nil => exact .error rfl
  | cons first others =>
    cases others with
    | nil => exact .error rfl
    | cons second others =>
      cases others with
      | nil => exact .ok (.atom (keeps first second))
      | cons => exact .error (congrArg (CompileError.arity op.name 2) length)

/-- Operators keep values apart by the numbers only. -/
theorem Operator.apply_renumbered (op : Operator)
    (each : List.Forall₂ (Value.Renumbered σ) values values') :
    Except.Agree Eq (Value.Renumbered σ) (op.apply values) (op.apply values') := by
  have forms := Except.Agree.mapM (fun _ _ h => Value.Renumbered.toForm h op.name) each
  cases op with
  | add => exact forms.bind fun _ _ h => .ok (.expression (.sum h))
  | subtract => exact forms.bind fun _ _ h => .ok (.expression (.difference h))
  | multiply =>
    exact forms.bind fun _ _ h => (LinearForm.Renumbered.product h).bind fun _ _ h =>
      .ok (.expression h)
  | atMost => exact compare_renumbered (fun h h' => h.sub h') each
  | atLeast => exact compare_renumbered (fun h h' => h'.sub h) each
  | all =>
    exact (Except.Agree.mapM (fun _ _ h => Value.Renumbered.toRows h) each).bind fun _ _ h =>
      .ok (.conjunction (List.rel_flatten h))
  | any =>
    exact (Except.Agree.mapM (fun _ _ h => Value.Renumbered.toAlternatives h) each).bind
      fun _ _ h => .ok (.disjunction (List.rel_flatten h))

theorem Value.ofConstant_renumbered (k : Constant) :
    Except.Agree Eq (Value.Renumbered σ) (Value.ofConstant k : Except (CompileError α) (Value α))
      (Value.ofConstant k) := by
  cases k with
  | int n => exact .ok (.expression (.ofScalar _))
  | real x => exact .ok (.expression (.ofScalar _))
  | string s => exact .error rfl

/-- The numbers of names do not matter to evaluation, except that they are the numbers in what
it results in. -/
theorem Term.evaluate_renumbered (t : Term) {keyOf keyOf' : String → Key}
    (renumbers : ∀ name ∈ t.names, keyOf' name = (keyOf name).renumber σ) :
    Except.Agree Eq (Value.Renumbered σ)
      (t.evaluate keyOf : Except (CompileError α) (Value α)) (t.evaluate keyOf') := by
  induction t with
  | constant k => exact Value.ofConstant_renumbered k
  | identifier name =>
    have key := renumbers name (by simp [Term.names])
    refine .ok (.expression ?_)
    rw [key]
    exact .ofKey _
  | apply function args ih =>
    rw [Term.names, Term.namesArgs_eq] at renumbers
    have values : Except.Agree Eq (List.Forall₂ (Value.Renumbered σ))
        (Term.evaluateArgs keyOf args : Except (CompileError α) (List (Value α)))
        (Term.evaluateArgs keyOf' args) := by
      rw [evaluateArgs_eq, evaluateArgs_eq]
      have each : List.Forall₂ (fun arg arg' => Except.Agree Eq (Value.Renumbered σ)
          (arg.evaluate keyOf : Except (CompileError α) (Value α)) (arg'.evaluate keyOf'))
          args args :=
        List.forall₂_same.mpr fun arg member => ih arg member fun name inside =>
          renumbers name (List.mem_flatMap.mpr ⟨arg, member, inside⟩)
      exact Except.Agree.mapM (fun _ _ h => h) each
    refine values.bind fun _ _ h => ?_
    simp only [Value.apply]
    cases Operator.ofName? function with
    | none => exact .error rfl
    | some op => exact op.apply_renumbered h

/-- What a term asserts differs by the numbers of names only. -/
theorem Term.assertion_renumbered (t : Term) {keyOf keyOf' : String → Key}
    (renumbers : ∀ name ∈ t.names, keyOf' name = (keyOf name).renumber σ) :
    Except.Agree Eq (Assertion.Renumbered σ)
      (t.assertion keyOf : Except (CompileError α) (Assertion α)) (t.assertion keyOf') :=
  (t.evaluate_renumbered renumbers).bind fun _ _ h => h.assertion

end NetSpec
