import NetSpec.Property.Region
import NetSpec.Proofs.Constraint.Coefficients

/-!
# The constraints that play no role

A constraint is refused for one cause, which depends on the variables that it mentions:
`Atom.Refused` says which, and `Atom.role_eq_error_iff` that these are all constraints without a
role. The variables of one kind come in the order of their numbers, so the first one that is
found with a property is the least one that has it.
-/

namespace NetSpec

namespace Key

/-- The keys of one kind, and the numbers that they carry. -/
structure IsKind (make : Nat → Key) (number? : Key → Option Nat) : Prop where
  number?_eq_some_iff : ∀ {key n}, number? key = some n ↔ key = make n
  lt_of_lt : ∀ {m n}, make m < make n → m < n
  ne_constant : ∀ {n}, make n ≠ constant

theorem isKind_input : IsKind input inputIndex? where
  number?_eq_some_iff {key n} := by cases key <;> simp [inputIndex?]
  lt_of_lt below := (below.resolve_left (Nat.lt_irrefl _)).2
  ne_constant := nofun

theorem isKind_output : IsKind output outputIndex? where
  number?_eq_some_iff {key n} := by cases key <;> simp [outputIndex?]
  lt_of_lt below := (below.resolve_left (Nat.lt_irrefl _)).2
  ne_constant := nofun

theorem isKind_other : IsKind other otherId? where
  number?_eq_some_iff {key n} := by cases key <;> simp [otherId?]
  lt_of_lt below := (below.resolve_left (Nat.lt_irrefl _)).2
  ne_constant := nofun

end Key

/-- In an increasing list the first number with a property is the least one. -/
theorem find?_eq_some_iff_least {numbers : List Nat} (increasing : numbers.Pairwise (· < ·))
    {p : Nat → Bool} {n : Nat} : numbers.find? p = some n ↔
      (n ∈ numbers ∧ p n = true) ∧ ∀ m ∈ numbers, p m = true → n ≤ m := by
  induction numbers with
  | nil => simp
  | cons first numbers ih =>
    rw [List.pairwise_cons] at increasing
    rw [List.find?_cons]
    split
    next holds =>
      constructor
      · rintro ⟨rfl⟩
        refine ⟨⟨List.mem_cons_self, holds⟩, fun m member _ => ?_⟩
        rcases List.mem_cons.mp member with rfl | member
        · exact Nat.le_refl _
        · exact (increasing.1 m member).le
      · rintro ⟨⟨member, _⟩, least⟩
        have below := least first List.mem_cons_self holds
        rcases List.mem_cons.mp member with rfl | member
        · rfl
        · exact absurd (increasing.1 n member) (Nat.not_lt.mpr below)
    next fails =>
      rw [ih increasing.2]
      have notFirst {m : Nat} (holds : p m = true) : m ∈ first :: numbers ↔ m ∈ numbers := by
        refine List.mem_cons.trans (or_iff_right ?_)
        rintro rfl
        rw [holds] at fails
        cases fails
      constructor
      · rintro ⟨⟨member, holds⟩, least⟩
        exact ⟨⟨List.mem_cons_of_mem _ member, holds⟩, fun m member held =>
          least m ((notFirst held).mp member) held⟩
      · rintro ⟨⟨member, holds⟩, least⟩
        exact ⟨⟨(notFirst holds).mp member, holds⟩, fun m member held =>
          least m (List.mem_cons_of_mem _ member) held⟩

namespace LinearForm

variable {α : Type}

/-- There is a coefficient for the key. -/
def Mentions (form : LinearForm α) (key : Key) : Prop := ∃ c, (key, c) ∈ form.terms

/-- The numbers of the variables of one kind, in order. -/
def numbers (form : LinearForm α) (number? : Key → Option Nat) : List Nat :=
  (form.variableTerms.map (·.1)).filterMap number?

variable {form : LinearForm α} {make : Nat → Key} {number? : Key → Option Nat}

theorem mem_variableTerms {key : Key} {c : α} (differ : key ≠ .constant) :
    (key, c) ∈ form.variableTerms ↔ (key, c) ∈ form.terms := by
  simp [variableTerms, differ]

theorem mem_numbers (kind : Key.IsKind make number?) {n : Nat} :
    n ∈ form.numbers number? ↔ form.Mentions (make n) := by
  constructor
  · intro member
    obtain ⟨key, listed, numbered⟩ := List.mem_filterMap.mp member
    obtain ⟨⟨key, c⟩, inForm, rfl⟩ := List.mem_map.mp listed
    obtain rfl := kind.number?_eq_some_iff.mp numbered
    exact ⟨c, (mem_variableTerms kind.ne_constant).mp inForm⟩
  · rintro ⟨c, inForm⟩
    have listed := (mem_variableTerms kind.ne_constant).mpr inForm
    exact List.mem_filterMap.mpr
      ⟨make n, List.mem_map_of_mem listed, kind.number?_eq_some_iff.mpr rfl⟩

theorem numbers_eq_nil_iff (kind : Key.IsKind make number?) :
    form.numbers number? = [] ↔ ∀ n, ¬ form.Mentions (make n) := by
  simp only [List.eq_nil_iff_forall_not_mem, mem_numbers kind]

theorem pairwise_numbers (kind : Key.IsKind make number?) (ordered : form.Ordered) :
    (form.numbers number?).Pairwise (· < ·) := by
  have keys : (form.variableTerms.map (·.1)).Pairwise (· < ·) :=
    List.pairwise_map.mpr (List.Pairwise.filter _ ordered)
  refine List.pairwise_filterMap.mpr (keys.imp fun {a b} below m first n second => ?_)
  rw [kind.number?_eq_some_iff.mp first, kind.number?_eq_some_iff.mp second] at below
  exact kind.lt_of_lt below

/-- A variable is the only one of its kind. -/
theorem numbers_eq_singleton_iff (kind : Key.IsKind make number?) (ordered : form.Ordered)
    {n : Nat} : form.numbers number? = [n] ↔ ∀ m, form.Mentions (make m) ↔ m = n := by
  have distinct : (form.numbers number?).Nodup :=
    (pairwise_numbers kind ordered).imp fun {_ _} below => below.ne
  rw [← List.perm_singleton, List.perm_ext_iff_of_nodup distinct (List.nodup_singleton n)]
  simp only [mem_numbers kind, List.mem_singleton]

theorem find?_numbers_eq_some_iff (kind : Key.IsKind make number?) (ordered : form.Ordered)
    {p : Nat → Bool} {n : Nat} : (form.numbers number?).find? p = some n ↔
      (form.Mentions (make n) ∧ p n = true) ∧
        ∀ m, form.Mentions (make m) → p m = true → n ≤ m := by
  simp only [find?_eq_some_iff_least (pairwise_numbers kind ordered), mem_numbers kind]

theorem findSome?_eq_find?_numbers (form : LinearForm α) (number? : Key → Option Nat) :
    (form.variableTerms.map (·.1)).findSome? number? =
      (form.numbers number?).find? fun _ => true := by
  rw [← List.head?_filterMap, ← numbers]
  cases form.numbers number? <;> rfl

theorem noOther_iff : (form.numbers Key.otherId?).find? (fun _ => true) = none ↔
    ∀ id, ¬ form.Mentions (.other id) := by
  rw [List.find?_eq_none, ← numbers_eq_nil_iff Key.isKind_other]
  simp [List.eq_nil_iff_forall_not_mem]

theorem exists_numbers (kind : Key.IsKind make number?) {n : Nat}
    (present : form.Mentions (make n)) : ∃ first others, form.numbers number? = first :: others :=
  List.exists_cons_of_ne_nil (List.ne_nil_of_mem ((mem_numbers kind).mpr present))

end LinearForm

/-- Why a constraint has no role: it mentions another variable, or inputs together with outputs,
or several inputs, or else one that there is not. Of several causes the first in this order
counts. -/
inductive Atom.Refused {α : Type} (atom : Atom α) (dims : Dimensions) : CompileError α → Prop where
  | unexpectedVariable {id : Nat} (present : atom.form.Mentions (.other id))
      (least : ∀ id', atom.form.Mentions (.other id') → id ≤ id') :
      Refused atom dims (.unexpectedVariable (dims.nameOf id))
  | mixedConstraint {i j : Nat} (plain : ∀ id, ¬ atom.form.Mentions (.other id))
      (input : atom.form.Mentions (.input i)) (output : atom.form.Mentions (.output j)) :
      Refused atom dims (.mixedConstraint atom)
  | multipleInputs {i i' : Nat} (plain : ∀ id, ¬ atom.form.Mentions (.other id))
      (noOutput : ∀ j, ¬ atom.form.Mentions (.output j)) (differ : i ≠ i')
      (input : atom.form.Mentions (.input i)) (input' : atom.form.Mentions (.input i')) :
      Refused atom dims (.multipleInputs atom)
  | inputOutOfRange {i : Nat} (plain : ∀ id, ¬ atom.form.Mentions (.other id))
      (noOutput : ∀ j, ¬ atom.form.Mentions (.output j)) (input : atom.form.Mentions (.input i))
      (single : ∀ i', atom.form.Mentions (.input i') → i' = i) (outside : dims.inputSize ≤ i) :
      Refused atom dims (.indexOutOfRange i dims.inputSize)
  | outputOutOfRange {j : Nat} (plain : ∀ id, ¬ atom.form.Mentions (.other id))
      (noInput : ∀ i, ¬ atom.form.Mentions (.input i)) (output : atom.form.Mentions (.output j))
      (outside : dims.outputSize ≤ j)
      (least : ∀ j', atom.form.Mentions (.output j') → dims.outputSize ≤ j' → j ≤ j') :
      Refused atom dims (.indexOutOfRange j dims.outputSize)

namespace Atom

open LinearForm

variable {α : Type} [Scalar α] {atom : Atom α} {dims : Dimensions} {e : CompileError α}

theorem role_eq (atom : Atom α) (dims : Dimensions) : atom.role dims =
    match (atom.form.numbers Key.otherId?).find? fun _ => true with
    | some id => .error (.unexpectedVariable (dims.nameOf id))
    | none =>
      match atom.form.numbers Key.inputIndex?, atom.form.numbers Key.outputIndex? with
      | [], [] => .ok (.constant atom.form.constantTerm)
      | [i], [] =>
        if i < dims.inputSize then
          .ok (.bound i (atom.form.coefficient (.input i)) atom.form.constantTerm)
        else .error (.indexOutOfRange i dims.inputSize)
      | [], outputs =>
        match outputs.find? (dims.outputSize ≤ ·) with
        | some i => .error (.indexOutOfRange i dims.outputSize)
        | none => .ok (.row (atom.toRow dims.outputSize))
      | _, [] => .error (.multipleInputs atom)
      | _, _ => .error (.mixedConstraint atom) := by
  rw [← findSome?_eq_find?_numbers]
  rfl

theorem refused_of_role (ordered : atom.form.Ordered) (failed : atom.role dims = .error e) :
    atom.Refused dims e := by
  rw [role_eq] at failed
  split at failed
  next id found =>
    obtain rfl := Except.error.inj failed
    obtain ⟨⟨present, _⟩, least⟩ := (find?_numbers_eq_some_iff Key.isKind_other ordered).mp found
    exact .unexpectedVariable present fun id' member => least id' member rfl
  next none =>
    have plain := noOther_iff.mp none
    split at failed
    next => cases failed
    next i inputs outputs =>
      split at failed
      next => cases failed
      next outside =>
        obtain rfl := Except.error.inj failed
        have input := (numbers_eq_singleton_iff Key.isKind_input ordered).mp inputs
        exact .inputOutOfRange plain ((numbers_eq_nil_iff Key.isKind_output).mp outputs)
          ((input i).mpr rfl) (fun i' => (input i').mp) (Nat.not_lt.mp outside)
    next inputs _ =>
      split at failed
      next j found =>
        obtain rfl := Except.error.inj failed
        obtain ⟨⟨present, outside⟩, least⟩ :=
          (find?_numbers_eq_some_iff Key.isKind_output ordered).mp found
        exact .outputOutOfRange plain ((numbers_eq_nil_iff Key.isKind_input).mp inputs) present
          (of_decide_eq_true outside) fun j' member outside => least j' member (by simpa)
      next => cases failed
    next outputs inputs single =>
      obtain rfl := Except.error.inj failed
      obtain ⟨i, rest, numbers⟩ := List.exists_cons_of_ne_nil inputs
      have first : atom.form.Mentions (.input i) :=
        (mem_numbers Key.isKind_input).mp (numbers ▸ List.mem_cons_self)
      obtain ⟨i', second, differ⟩ : ∃ i', atom.form.Mentions (.input i') ∧ i ≠ i' := by
        by_contra none
        refine single i ((numbers_eq_singleton_iff Key.isKind_input ordered).mpr fun i' => ?_)
        exact ⟨fun member => by_contra fun differ => none ⟨i', member, Ne.symm differ⟩,
          fun same => same ▸ first⟩
      exact .multipleInputs plain ((numbers_eq_nil_iff Key.isKind_output).mp outputs) differ
        first second
    next inputs outputs _ _ =>
      obtain rfl := Except.error.inj failed
      obtain ⟨i, others, numbers⟩ := List.exists_cons_of_ne_nil inputs
      obtain ⟨j, others', numbers'⟩ := List.exists_cons_of_ne_nil outputs
      exact .mixedConstraint plain
        ((mem_numbers Key.isKind_input).mp (numbers ▸ List.mem_cons_self))
        ((mem_numbers Key.isKind_output).mp (numbers' ▸ List.mem_cons_self))

theorem role_of_refused (ordered : atom.form.Ordered) (refused : atom.Refused dims e) :
    atom.role dims = .error e := by
  rw [role_eq]
  cases refused with
  | unexpectedVariable present least =>
    have found := (find?_numbers_eq_some_iff (p := fun _ => true) Key.isKind_other ordered).mpr
      ⟨⟨present, rfl⟩, fun id' member _ => least id' member⟩
    rw [found]
  | mixedConstraint plain input output =>
    obtain ⟨i, others, inputs⟩ := exists_numbers Key.isKind_input input
    obtain ⟨j, others', outputs⟩ := exists_numbers Key.isKind_output output
    rw [noOther_iff.mpr plain, inputs, outputs]
    cases others <;> rfl
  | multipleInputs plain noOutput differ input input' =>
    obtain ⟨i, others, inputs⟩ := exists_numbers Key.isKind_input input
    rw [noOther_iff.mpr plain, (numbers_eq_nil_iff Key.isKind_output).mpr noOutput, inputs]
    cases others with
    | nil =>
      have single := (numbers_eq_singleton_iff Key.isKind_input ordered).mp inputs
      exact absurd (((single _).mp input).trans ((single _).mp input').symm) differ
    | cons => rfl
  | @inputOutOfRange i plain noOutput input single outside =>
    have inputs : atom.form.numbers Key.inputIndex? = [i] :=
      (numbers_eq_singleton_iff Key.isKind_input ordered).mpr fun i' =>
        ⟨single i', fun same => same ▸ input⟩
    rw [noOther_iff.mpr plain, (numbers_eq_nil_iff Key.isKind_output).mpr noOutput, inputs]
    exact if_neg (Nat.not_lt.mpr outside)
  | @outputOutOfRange j plain noInput output outside least =>
    obtain ⟨_, _, outputs⟩ := exists_numbers Key.isKind_output output
    have found : (atom.form.numbers Key.outputIndex?).find? (dims.outputSize ≤ ·) = .some j :=
      (find?_numbers_eq_some_iff Key.isKind_output ordered).mpr
        ⟨⟨output, decide_eq_true outside⟩, fun j' member outside =>
          least j' member (of_decide_eq_true outside)⟩
    rw [noOther_iff.mpr plain, (numbers_eq_nil_iff Key.isKind_input).mpr noInput]
    rw [outputs] at found ⊢
    dsimp only
    rw [found]

/-- A constraint has no role for the cause that it is refused for. -/
theorem role_eq_error_iff (ordered : atom.form.Ordered) :
    atom.role dims = .error e ↔ atom.Refused dims e :=
  ⟨refused_of_role ordered, role_of_refused ordered⟩

end Atom

end NetSpec
