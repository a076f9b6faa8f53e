import NetSpec.Proofs.Compiler.Evaluation
import NetSpec.Proofs.Constraint.Coefficients

/-!
# The keys in what is compiled

Operations on forms bring in no key that was not there before, apart from that of the constant. So
every constraint in the value of a term is about keys of the names of the term. The causes for
which a term has no value are other than those for which constraints have no region, so an error
tells which of the two went wrong.

Constraints whose keys are inside the vectors may be refused for what they are about, but not for
an index.
-/

namespace NetSpec

/-- The cause is one of constraints that cannot be assembled, and not one of terms. -/
def CompileError.isAssembly {α : Type} : CompileError α → Bool
  | .unexpectedVariable _ | .mixedConstraint _ | .multipleInputs _ | .indexOutOfRange _ _ => true
  | _ => false

/-- The cause is an index that is too large. -/
def CompileError.isOutOfRange {α : Type} : CompileError α → Bool
  | .indexOutOfRange _ _ => true
  | _ => false

theorem CompileError.isOutOfRange_of_isAssembly {α : Type} {e : CompileError α}
    (evaluation : e.isAssembly = false) : e.isOutOfRange = false := by
  cases e with
  | indexOutOfRange => cases evaluation
  | _ => rfl

variable {α : Type} {P : Key → Prop}

/-- Every term of the form is at a key of a kind. -/
def LinearForm.Uses (P : Key → Prop) (form : LinearForm α) : Prop := ∀ term ∈ form.terms, P term.1

def Atom.Uses (P : Key → Prop) (atom : Atom α) : Prop := atom.form.Uses P

/-- Every constraint, or the form, is about keys of a kind. -/
def Value.Uses (P : Key → Prop) : Value α → Prop
  | .expression form => form.Uses P
  | .atom a => a.Uses P
  | .conjunction rows => ∀ a ∈ rows, a.Uses P
  | .disjunction alternatives => ∀ rows ∈ alternatives, ∀ a ∈ rows, a.Uses P

namespace LinearForm

theorem uses_zero : (zero : LinearForm α).Uses P := List.forall_mem_nil _

/-- Changing coefficients changes no key. -/
theorem Uses.map {form : LinearForm α} (uses : form.Uses P) (f : α → α) :
    (⟨form.terms.map fun (key, c) => (key, f c)⟩ : LinearForm α).Uses P := by
  intro term mem
  obtain ⟨old, inForm, rfl⟩ := List.mem_map.mp mem
  exact uses old inForm

variable [Scalar α] {a b : LinearForm α} {forms : List (LinearForm α)}

theorem Uses.addTerm (uses : a.Uses P) {key : Key} (held : P key) (value : α) :
    (a.addTerm key value).Uses P := by
  intro term mem
  rcases key_mem_insert mem with same | before
  · rwa [same]
  · exact uses term before

theorem uses_ofKey {key : Key} (held : P key) : (ofKey key : LinearForm α).Uses P :=
  uses_zero.addTerm held Scalar.one

theorem uses_ofScalar (constant : P .constant) (value : α) : (ofScalar value).Uses P :=
  uses_zero.addTerm constant value

theorem Uses.addTerms (uses : a.Uses P) (f : α → α) {terms : List (Key × α)}
    (added : ∀ term ∈ terms, P term.1) : (a.addTerms f terms).Uses P := by
  induction terms generalizing a with
  | nil => exact uses
  | cons term terms ih =>
    obtain ⟨first, others⟩ := List.forall_mem_cons.mp added
    exact ih (uses.addTerm first _) others

theorem Uses.add (uses : a.Uses P) (uses' : b.Uses P) : (a + b).Uses P := uses.addTerms id uses'

theorem Uses.sub (uses : a.Uses P) (uses' : b.Uses P) : (a - b).Uses P := uses.addTerms (-·) uses'

theorem Uses.neg (uses : a.Uses P) : (-a).Uses P := uses.map (-·)

theorem Uses.scale (uses : a.Uses P) (factor : α) : (a.scale factor).Uses P := by
  rw [LinearForm.scale]
  split
  · exact uses_zero
  · exact uses.map (· * factor)

omit [Scalar α] in
theorem Uses.foldl {f : LinearForm α → LinearForm α → LinearForm α}
    (keeps : ∀ {a b : LinearForm α}, a.Uses P → b.Uses P → (f a b).Uses P) (uses : a.Uses P)
    (all : ∀ form ∈ forms, form.Uses P) : (forms.foldl f a).Uses P := by
  induction forms generalizing a with
  | nil => exact uses
  | cons form forms ih =>
    obtain ⟨first, others⟩ := List.forall_mem_cons.mp all
    exact ih (keeps uses first) others

theorem uses_sum (all : ∀ form ∈ forms, form.Uses P) : (sum forms).Uses P :=
  .foldl .add uses_zero all

theorem uses_difference (all : ∀ form ∈ forms, form.Uses P) : (difference forms).Uses P := by
  match forms with
  | [] => exact uses_zero.neg
  | [form] => exact (all form List.mem_cons_self).neg
  | first :: second :: others =>
    obtain ⟨one, more⟩ := List.forall_mem_cons.mp all
    exact .foldl .sub one more

theorem product_meets (constant : P .constant) (all : ∀ form ∈ forms, form.Uses P) :
    Except.Meets (Uses P) (·.isAssembly = false) (product forms) := by
  rw [product]
  split
  next => exact .ok (uses_ofScalar constant _)
  next form alone =>
    have inForms : form ∈ forms.filter (!·.isConstant) := by
      rw [alone]
      exact List.mem_singleton_self form
    exact .ok ((all form (List.mem_of_mem_filter inForms)).scale _)
  next => exact .error rfl

end LinearForm

namespace Value.Uses

variable {value : Value α}

theorem toForm (uses : value.Uses P) (function : String) :
    Except.Meets (LinearForm.Uses P) (·.isAssembly = false) (value.toForm function) := by
  cases value with
  | expression form => exact .ok uses
  | atom | conjunction | disjunction => exact .error rfl

theorem toRows (uses : value.Uses P) :
    Except.Meets (∀ a ∈ ·, Atom.Uses P a) (·.isAssembly = false) value.toRows := by
  match value with
  | expression _ => exact .error rfl
  | atom a => exact .ok (List.forall_mem_singleton.mpr uses)
  | conjunction rows => exact .ok uses
  | disjunction [] => exact .error rfl
  | disjunction [rows] => exact .ok (uses rows List.mem_cons_self)
  | disjunction (_ :: _ :: _) => exact .error rfl

theorem toAlternatives (uses : value.Uses P) :
    Except.Meets (∀ rows ∈ ·, ∀ a ∈ rows, Atom.Uses P a) (·.isAssembly = false)
      value.toAlternatives := by
  cases value with
  | expression => exact .error rfl
  | atom a => exact .ok (List.forall_mem_singleton.mpr (List.forall_mem_singleton.mpr uses))
  | conjunction rows => exact .ok (List.forall_mem_singleton.mpr uses)
  | disjunction alternatives => exact .ok uses

/-- What a value asserts is about the keys of the value. -/
theorem assertion (uses : value.Uses P) :
    Except.Meets (∀ a ∈ ·.atoms, Atom.Uses P a) (·.isAssembly = false) value.assertion := by
  cases value with
  | expression => exact .error rfl
  | atom a => exact .ok (List.forall_mem_singleton.mpr uses)
  | conjunction rows => exact .ok uses
  | disjunction alternatives =>
    refine .ok fun a mem => ?_
    obtain ⟨rows, listed, inRows⟩ := List.mem_flatten.mp mem
    exact uses rows listed a inRows

end Value.Uses

variable [Scalar α] {values : List (Value α)}

omit [Scalar α] in
theorem Operator.compare_meets (op : Operator) {relation : LinearForm α → LinearForm α → Atom α}
    (keeps : ∀ {a b : LinearForm α}, a.Uses P → b.Uses P → (relation a b).Uses P)
    (all : ∀ value ∈ values, value.Uses P) :
    Except.Meets (Value.Uses P) (·.isAssembly = false) (op.compare relation values) := by
  have forms := Except.Meets.mapM fun value mem => (all value mem).toForm op.name
  refine forms.bind fun forms uses => ?_
  match forms with
  | [a, b] => exact .ok (keeps (uses a (by simp)) (uses b (by simp)))
  | [] | [_] | _ :: _ :: _ :: _ => exact .error rfl

/-- An operator results in keys of its arguments. -/
theorem Operator.apply_meets (op : Operator) (constant : P .constant)
    (all : ∀ value ∈ values, value.Uses P) :
    Except.Meets (Value.Uses P) (·.isAssembly = false) (op.apply values) := by
  have forms := Except.Meets.mapM fun value mem => (all value mem).toForm op.name
  cases op with
  | add => exact forms.bind fun _ uses => .ok (LinearForm.uses_sum uses)
  | subtract => exact forms.bind fun _ uses => .ok (LinearForm.uses_difference uses)
  | multiply =>
    exact forms.bind fun _ uses => (LinearForm.product_meets constant uses).bind fun _ uses =>
      .ok uses
  | atMost => exact compare_meets _ (fun uses uses' => uses.sub uses') all
  | atLeast => exact compare_meets _ (fun uses uses' => uses'.sub uses) all
  | all =>
    have rows := Except.Meets.mapM fun value mem => (all value mem).toRows
    exact rows.bind fun _ uses => .ok (List.forall_mem_flatten.mpr uses)
  | any =>
    have alternatives := Except.Meets.mapM fun value mem => (all value mem).toAlternatives
    exact alternatives.bind fun _ uses => .ok (List.forall_mem_flatten.mpr uses)

/-- The value of a term is about keys of its names, and it is no matter of assembling if there is
none. -/
theorem Term.evaluate_meets (t : Term) {keyOf : String → Key} (constant : P .constant)
    (names : ∀ name ∈ t.names, P (keyOf name)) :
    Except.Meets (Value.Uses P) (·.isAssembly = false)
      (t.evaluate keyOf : Except (CompileError α) (Value α)) := by
  induction t with
  | constant value =>
    cases value with
    | int n => exact .ok (LinearForm.uses_ofScalar constant _)
    | real x => exact .ok (LinearForm.uses_ofScalar constant _)
    | string s => exact .error rfl
  | identifier name => exact .ok (LinearForm.uses_ofKey (names name (List.mem_singleton_self name)))
  | apply function args ih =>
    rw [Term.names, Term.namesArgs_eq] at names
    have values : Except.Meets (∀ value ∈ ·, Value.Uses P value) (·.isAssembly = false)
        (Term.evaluateArgs keyOf args : Except (CompileError α) (List (Value α))) := by
      rw [evaluateArgs_eq]
      exact .mapM fun arg mem => ih arg mem fun name inside =>
        names name (List.mem_flatMap.mpr ⟨arg, mem, inside⟩)
    refine values.bind fun _ uses => ?_
    simp only [Value.apply]
    cases Operator.ofName? function with
    | none => exact .error rfl
    | some op => exact op.apply_meets constant uses

/-- What a term asserts is about keys of its names. -/
theorem Term.assertion_meets (t : Term) {keyOf : String → Key} (constant : P .constant)
    (names : ∀ name ∈ t.names, P (keyOf name)) :
    Except.Meets (∀ a ∈ ·.atoms, Atom.Uses P a) (·.isAssembly = false)
      (t.assertion keyOf : Except (CompileError α) (Assertion α)) :=
  (t.evaluate_meets constant names).bind fun _ uses => uses.assertion

/-! ### Assembling -/

/-- The key of a component is inside its vector. -/
def Dimensions.Covers (dims : Dimensions) : Key → Prop
  | .input i => i < dims.inputSize
  | .output j => j < dims.outputSize
  | .constant | .other _ => True

variable {dims : Dimensions}

/-- A constraint inside the vectors is not refused for an index. -/
theorem Atom.role_meets {atom : Atom α} (covered : atom.Uses dims.Covers) :
    Except.Meets (fun _ => True) (·.isOutOfRange = false) (atom.role dims) := by
  have inside : ∀ key ∈ atom.form.variableTerms.map (·.1), dims.Covers key := by
    intro key mem
    obtain ⟨term, listed, rfl⟩ := List.mem_map.mp mem
    exact covered term (List.mem_of_mem_filter listed)
  simp only [Atom.role]
  generalize atom.form.variableTerms.map (·.1) = keys at inside
  have indices (index? : Key → Option Nat) (size : Nat)
      (bounds : ∀ key i, dims.Covers key → index? key = some i → i < size) :
      ∀ i ∈ keys.filterMap index?, i < size := by
    intro i mem
    obtain ⟨key, listed, index⟩ := List.mem_filterMap.mp mem
    exact bounds key i (inside key listed) index
  have inputs := indices Key.inputIndex? dims.inputSize fun
    | .input _, _, covers, rfl => covers
  have outputs := indices Key.outputIndex? dims.outputSize fun
    | .output _, _, covers, rfl => covers
  split
  · exact .error rfl
  split
  · exact .ok trivial
  next i single _ =>
    rw [if_pos (inputs i (by simp [single]))]
    exact .ok trivial
  next =>
    split
    next j found =>
      have small := outputs j (List.mem_of_find?_eq_some found)
      have large : dims.outputSize ≤ j := by simpa using List.find?_some found
      omega
    · exact .ok trivial
  · exact .error rfl
  · exact .error rfl

/-- Branches inside the vectors are not refused for an index. -/
theorem Branches.properties_meets {branches : Branches α}
    (covered : ∀ rows ∈ branches.rows, ∀ atom ∈ rows, atom.Uses dims.Covers) :
    Except.Meets (fun _ => True) (·.isOutOfRange = false) (branches.properties dims) := by
  have regions : ∀ rows ∈ branches.rows, Except.Meets (fun _ => True)
      (CompileError.isOutOfRange · = false) (Region.ofRows? rows dims) := by
    intro rows branch
    refine (Except.Meets.mapM fun atom mem => Atom.role_meets (covered rows branch atom mem)).bind
      fun roles _ => ?_
    split <;> exact .ok trivial
  exact (Except.Meets.mapM regions).bind fun _ _ => .ok trivial

end NetSpec
