import NetSpec.Proofs.Compiler.Evaluation
import NetSpec.Proofs.Exact.Properties

/-!
# The usual meaning of terms

With numbers for names, a term of arithmetic is a number and a constraint is true or false.
These meanings know nothing of linear forms: a product multiplies whatever stands in it, and
constraints nest in any way. What evaluation adds is that a term has a value at all. If it
has, `Term.evaluate_means` says that the value means the same: the form has the number of the
term, and the rows or alternatives hold when the term does.
-/

namespace NetSpec

/-- The number of a literal; a text is none. -/
def Constant.number : Constant → ℚ
  | .int n => n.toInt
  | .real x => Binary64.toRat x
  | .string _ => 0

/-- What functions of arithmetic do to numbers. A difference of one number is its negation. -/
def arithmetic (numbers : List ℚ) : String → ℚ
  | "+" => numbers.sum
  | "*" => numbers.prod
  | "-" =>
    match numbers with
    | [] => 0
    | [a] => -a
    | a :: others => a - others.sum
  | _ => 0

mutual

/-- The number that a term is, with numbers for names. -/
def Term.number (v : String → ℚ) : Term → ℚ
  | .apply function args => arithmetic (Term.numbers v args) function
  | .constant value => value.number
  | .identifier name => v name

def Term.numbers (v : String → ℚ) : List Term → List ℚ
  | [] => []
  | arg :: args => Term.number v arg :: Term.numbers v args

end

/-- What comparisons say of numbers. -/
def comparison (numbers : List ℚ) : String → Prop
  | "<=" => ∃ a b, numbers = [a, b] ∧ a ≤ b
  | ">=" => ∃ a b, numbers = [a, b] ∧ a ≥ b
  | _ => False

mutual

/-- The truth of a term, with numbers for names. -/
def Term.Holds (v : String → ℚ) : Term → Prop
  | .apply "and" args => Term.HoldAll v args
  | .apply "or" args => Term.HoldAny v args
  | .apply function args => comparison (Term.numbers v args) function
  | _ => False

def Term.HoldAll (v : String → ℚ) : List Term → Prop
  | [] => True
  | arg :: args => Term.Holds v arg ∧ Term.HoldAll v args

def Term.HoldAny (v : String → ℚ) : List Term → Prop
  | [] => False
  | arg :: args => Term.Holds v arg ∨ Term.HoldAny v args

end

namespace Term

variable (v : String → ℚ) (args : List Term)

theorem holds_all : (apply "and" args).Holds v ↔ HoldAll v args := by
  rw [Holds]

theorem holds_any : (apply "or" args).Holds v ↔ HoldAny v args := by
  rw [Holds]

theorem holds_compare {function : String} (notAll : function ≠ "and") (notAny : function ≠ "or") :
    (apply function args).Holds v ↔ comparison (numbers v args) function := by
  rw [Holds]
  · exact notAll
  · exact notAny

end Term

namespace LinearForm

variable (ν : Key → ℚ)

theorem value_foldl_add (form : LinearForm ℚ) (forms : List (LinearForm ℚ)) :
    (forms.foldl (· + ·) form).value ν = form.value ν + (forms.map (value ν)).sum := by
  induction forms generalizing form with
  | nil => simp
  | cons next forms ih =>
    rw [List.foldl_cons, ih, value_add, List.map_cons, List.sum_cons, add_assoc]

theorem value_sum (forms : List (LinearForm ℚ)) :
    (sum forms).value ν = arithmetic (forms.map (value ν)) "+" := by
  rw [sum, value_foldl_add, value_zero, zero_add]
  rfl

theorem value_foldl_sub (form : LinearForm ℚ) (forms : List (LinearForm ℚ)) :
    (forms.foldl (· - ·) form).value ν = form.value ν - (forms.map (value ν)).sum := by
  induction forms generalizing form with
  | nil => simp
  | cons next forms ih =>
    rw [List.foldl_cons, ih, value_sub, List.map_cons, List.sum_cons, sub_sub]

theorem value_difference (forms : List (LinearForm ℚ)) :
    (difference forms).value ν = arithmetic (forms.map (value ν)) "-" := by
  match forms with
  | [] => exact value_neg ν zero
  | [form] => exact value_neg ν form
  | form :: next :: forms => exact value_foldl_sub ν form (next :: forms)

/-- The product of numbers is the product of the constants among them and of the rest. -/
theorem prod_eq_factor_mul (one : ν .constant = 1) {forms : List (LinearForm ℚ)}
    (ordered : ∀ form ∈ forms, form.Ordered) :
    (forms.map (value ν)).prod =
      factor forms * ((forms.filter (!·.isConstant)).map (value ν)).prod := by
  have onto (product : ℚ) : product * (forms.map (value ν)).prod =
      (forms.filter (·.isConstant)).foldl (fun product form => product * form.constantTerm)
        product * ((forms.filter (!·.isConstant)).map (value ν)).prod := by
    induction forms generalizing product with
    | nil => simp
    | cons form forms ih =>
      obtain ⟨first, others⟩ := List.forall_mem_cons.mp ordered
      cases constant : form.isConstant with
      | true =>
        have value := value_of_isConstant ν first one constant
        simp [constant, value, ← ih others, mul_assoc]
      | false =>
        have rest := ih others product
        simp only [List.map_cons, List.prod_cons, List.filter_cons, constant, Bool.not_false,
          if_true]
        rw [if_neg Bool.false_ne_true, mul_left_comm, rest]
        ring
  exact (one_mul _).symm.trans (onto 1)

theorem value_product (one : ν .constant = 1) {forms : List (LinearForm ℚ)}
    (ordered : ∀ form ∈ forms, form.Ordered) {form : LinearForm ℚ}
    (found : product forms = .ok form) :
    form.value ν = arithmetic (forms.map (value ν)) "*" := by
  have split := prod_eq_factor_mul ν one ordered
  show _ = (forms.map (value ν)).prod
  rw [split]
  simp only [product] at found
  split at found
  next none =>
    obtain rfl := Except.ok.inj found
    rw [none, value_ofScalar ν _ one]
    simp
  next single =>
    obtain rfl := Except.ok.inj found
    rw [single, value_scale, mul_comm]
    simp
  next => simp at found

namespace Canonical

theorem foldl {f : LinearForm ℚ → LinearForm ℚ → LinearForm ℚ}
    (keeps : ∀ a b : LinearForm ℚ, a.Canonical → (f a b).Canonical) {form : LinearForm ℚ}
    (h : form.Canonical) (forms : List (LinearForm ℚ)) : (forms.foldl f form).Canonical := by
  induction forms generalizing form with
  | nil => exact h
  | cons next forms ih => exact ih (keeps form next h)

theorem sum (forms : List (LinearForm ℚ)) : (LinearForm.sum forms).Canonical :=
  foldl (fun _ b h => h.add b) zero forms

theorem difference {forms : List (LinearForm ℚ)} (h : ∀ form ∈ forms, form.Canonical) :
    (LinearForm.difference forms).Canonical := by
  match forms with
  | [] => exact zero.neg
  | [form] => exact (h form (by simp)).neg
  | form :: next :: forms => exact foldl (fun _ b h => h.sub b) (h form (by simp)) _

theorem product {forms : List (LinearForm ℚ)} (h : ∀ form ∈ forms, form.Canonical)
    {form : LinearForm ℚ} (found : LinearForm.product forms = .ok form) : form.Canonical := by
  simp only [LinearForm.product] at found
  split at found
  next =>
    obtain rfl := Except.ok.inj found
    exact ofScalar _
  next single =>
    obtain rfl := Except.ok.inj found
    have member := List.mem_of_mem_filter (single ▸ List.mem_cons_self)
    exact (h _ member).scale _
  next => simp at found

end Canonical

end LinearForm

/-- Constraints that are kept canonical and hold together exactly if something is true. -/
structure Conjunction.Means (ν : Key → ℚ) (rows : Conjunction ℚ) (truth : Prop) : Prop where
  canonical : ∀ atom ∈ rows, atom.form.Canonical
  holds : (∀ atom ∈ rows, atom.Holds ν) ↔ truth

/-- Alternatives that are kept canonical, one of which holds exactly if something is true. -/
structure Disjunction.Means (ν : Key → ℚ) (alternatives : Disjunction ℚ) (truth : Prop) :
    Prop where
  canonical : ∀ rows ∈ alternatives, ∀ atom ∈ rows, atom.form.Canonical
  holds : (∃ rows ∈ alternatives, ∀ atom ∈ rows, atom.Holds ν) ↔ truth

/-- A value means under a valuation of keys what a term means with numbers for names. -/
def Value.Means (ν : Key → ℚ) (v : String → ℚ) (t : Term) : Value ℚ → Prop
  | .expression form => form.Canonical ∧ form.value ν = t.number v
  | .atom a => Conjunction.Means ν [a] (t.Holds v)
  | .conjunction rows => Conjunction.Means ν rows (t.Holds v)
  | .disjunction alternatives => Disjunction.Means ν alternatives (t.Holds v)

namespace Value

variable {ν : Key → ℚ} {v : String → ℚ}

theorem toForm_means {function : String} {t : Term} {value : Value ℚ} {form : LinearForm ℚ}
    (means : value.Means ν v t) (found : value.toForm function = .ok form) :
    form.Canonical ∧ form.value ν = t.number v := by
  cases value with
  | expression =>
    obtain rfl := Except.ok.inj found
    exact means
  | atom => simp [toForm] at found
  | conjunction => simp [toForm] at found
  | disjunction => simp [toForm] at found

theorem toRows_means {t : Term} {value : Value ℚ} {rows : Conjunction ℚ}
    (means : value.Means ν v t) (found : value.toRows = .ok rows) :
    Conjunction.Means ν rows (t.Holds v) := by
  simp only [toRows] at found
  split at found
  next =>
    obtain rfl := Except.ok.inj found
    exact means
  next =>
    obtain rfl := Except.ok.inj found
    exact means
  next =>
    obtain rfl := Except.ok.inj found
    exact ⟨means.canonical _ (by simp), by simpa using means.holds⟩
  next => simp at found
  next => simp at found

theorem toAlternatives_means {t : Term} {value : Value ℚ} {alternatives : Disjunction ℚ}
    (means : value.Means ν v t) (found : value.toAlternatives = .ok alternatives) :
    Disjunction.Means ν alternatives (t.Holds v) := by
  have single {rows : Conjunction ℚ} (means : Conjunction.Means ν rows (t.Holds v)) :
      Disjunction.Means ν [rows] (t.Holds v) :=
    ⟨by simpa using means.canonical, by simpa using means.holds⟩
  cases value with
  | expression => simp [toAlternatives] at found
  | atom =>
    obtain rfl := Except.ok.inj found
    exact single means
  | conjunction =>
    obtain rfl := Except.ok.inj found
    exact single means
  | disjunction =>
    obtain rfl := Except.ok.inj found
    exact means

/-- Arguments mean what the terms mean that they are the values of. -/
theorem forms_mean {function : String} {args : List Term} {values : List (Value ℚ)}
    {forms : List (LinearForm ℚ)} (means : List.Forall₂ (fun t value => value.Means ν v t) args values)
    (found : values.mapM (·.toForm function) = .ok forms) :
    (∀ form ∈ forms, form.Canonical) ∧ forms.map (·.value ν) = Term.numbers v args := by
  replace found := Except.mapM_eq_ok_iff.mp found
  induction means generalizing forms with
  | nil =>
    cases found
    exact ⟨by simp, rfl⟩
  | cons first _ ih =>
    cases found with
    | cons form others =>
      obtain ⟨canonical, number⟩ := toForm_means first form
      obtain ⟨canonicalOthers, numbers⟩ := ih others
      exact ⟨List.forall_mem_cons.mpr ⟨canonical, canonicalOthers⟩,
        by rw [List.map_cons, number, numbers, Term.numbers]⟩

theorem rows_mean {args : List Term} {values : List (Value ℚ)} {rows : List (Conjunction ℚ)}
    (means : List.Forall₂ (fun t value => value.Means ν v t) args values)
    (found : values.mapM (·.toRows) = .ok rows) :
    Conjunction.Means ν rows.flatten (Term.HoldAll v args) := by
  replace found := Except.mapM_eq_ok_iff.mp found
  induction means generalizing rows with
  | nil =>
    cases found
    exact ⟨by simp, by simp [Term.HoldAll]⟩
  | cons first _ ih =>
    cases found with
    | cons row others =>
      have head := toRows_means first row
      have tail := ih others
      refine ⟨List.forall_mem_append.mpr ⟨head.canonical, tail.canonical⟩, ?_⟩
      rw [List.flatten_cons, List.forall_mem_append, head.holds, tail.holds, Term.HoldAll]

theorem alternatives_mean {args : List Term} {values : List (Value ℚ)}
    {alternatives : List (Disjunction ℚ)}
    (means : List.Forall₂ (fun t value => value.Means ν v t) args values)
    (found : values.mapM (·.toAlternatives) = .ok alternatives) :
    Disjunction.Means ν alternatives.flatten (Term.HoldAny v args) := by
  replace found := Except.mapM_eq_ok_iff.mp found
  induction means generalizing alternatives with
  | nil =>
    cases found
    exact ⟨by simp, by simp [Term.HoldAny]⟩
  | cons first _ ih =>
    cases found with
    | cons alternative others =>
      have head := toAlternatives_means first alternative
      have tail := ih others
      refine ⟨List.forall_mem_append.mpr ⟨head.canonical, tail.canonical⟩, ?_⟩
      rw [Term.HoldAny, ← head.holds, ← tail.holds]
      simp only [List.flatten_cons, List.mem_append, or_and_right, exists_or]

end Value

namespace Operator

variable {ν : Key → ℚ} {v : String → ℚ} {args : List Term} {values : List (Value ℚ)}
  {value : Value ℚ}

/-- A comparison of two forms holds when their numbers compare. -/
theorem compare_means {op : Operator} {relation : LinearForm ℚ → LinearForm ℚ → Atom ℚ}
    (canonical : ∀ a b, a.Canonical → b.Canonical → (relation a b).form.Canonical)
    (holds : ∀ a b, (relation a b).Holds ν ↔ comparison [a.value ν, b.value ν] op.name)
    (means : List.Forall₂ (fun t value => value.Means ν v t) args values)
    (found : op.compare relation values = .ok value) :
    ∃ atom, value = .atom atom ∧
      Conjunction.Means ν [atom] (comparison (Term.numbers v args) op.name) := by
  obtain ⟨forms, toForms, made⟩ := Except.bind_eq_ok_iff.mp found
  obtain ⟨canonicalForms, numbers⟩ := Value.forms_mean means toForms
  split at made
  next a b =>
    obtain rfl := Except.ok.inj made
    refine ⟨_, rfl, ?_, ?_⟩
    · simpa using canonical a b (canonicalForms a (by simp)) (canonicalForms b (by simp))
    · rw [← numbers, List.forall_mem_singleton]
      exact holds a b
  next => cases made

/-- An operator does to values what its function does to what they mean. -/
theorem apply_means {op : Operator} (one : ν .constant = 1)
    (means : List.Forall₂ (fun t value => value.Means ν v t) args values)
    (found : op.apply values = .ok value) : value.Means ν v (.apply op.name args) := by
  cases op with
  | add =>
    obtain ⟨forms, toForms, made⟩ := Except.bind_eq_ok_iff.mp found
    obtain rfl := Except.ok.inj made
    obtain ⟨_, numbers⟩ := Value.forms_mean means toForms
    refine ⟨.sum forms, ?_⟩
    rw [LinearForm.value_sum, numbers]
    rfl
  | subtract =>
    obtain ⟨forms, toForms, made⟩ := Except.bind_eq_ok_iff.mp found
    obtain rfl := Except.ok.inj made
    obtain ⟨canonical, numbers⟩ := Value.forms_mean means toForms
    refine ⟨.difference canonical, ?_⟩
    rw [LinearForm.value_difference, numbers]
    rfl
  | multiply =>
    obtain ⟨forms, toForms, multiplied⟩ := Except.bind_eq_ok_iff.mp found
    obtain ⟨form, product, made⟩ := Except.bind_eq_ok_iff.mp multiplied
    obtain rfl := Except.ok.inj made
    obtain ⟨canonical, numbers⟩ := Value.forms_mean means toForms
    refine ⟨.product canonical product, ?_⟩
    rw [LinearForm.value_product ν one (fun form member => (canonical form member).ordered) product,
      numbers]
    rfl
  | atMost =>
    have holds (a b : LinearForm ℚ) :
        (Atom.le a b).Holds ν ↔ comparison [a.value ν, b.value ν] "<=" := by
      simp [Atom.Holds, Atom.le, LinearForm.value_sub, comparison]
    obtain ⟨atom, rfl, compared⟩ := compare_means (fun a b h _ => h.sub b) holds means found
    rw [Value.Means, name, Term.holds_compare v args (by decide) (by decide)]
    exact compared
  | atLeast =>
    have holds (a b : LinearForm ℚ) :
        (Atom.ge a b).Holds ν ↔ comparison [a.value ν, b.value ν] ">=" := by
      simp [Atom.Holds, Atom.ge, LinearForm.value_sub, comparison]
    obtain ⟨atom, rfl, compared⟩ := compare_means (fun a b _ h => h.sub a) holds means found
    rw [Value.Means, name, Term.holds_compare v args (by decide) (by decide)]
    exact compared
  | all =>
    obtain ⟨rows, toRows, made⟩ := Except.bind_eq_ok_iff.mp found
    obtain rfl := Except.ok.inj made
    rw [Value.Means, name, Term.holds_all]
    exact Value.rows_mean means toRows
  | any =>
    obtain ⟨alternatives, toAlternatives, made⟩ := Except.bind_eq_ok_iff.mp found
    obtain rfl := Except.ok.inj made
    rw [Value.Means, name, Term.holds_any]
    exact Value.alternatives_mean means toAlternatives

theorem name_of_ofName? {function : String} {op : Operator} (found : ofName? function = some op) :
    op.name = function := by
  have named := List.find?_some found
  exact eq_of_beq named

end Operator

/-- The value of a term means what the term means. -/
theorem Term.evaluate_means {ν : Key → ℚ} {v : String → ℚ} {keyOf : String → Key}
    (one : ν .constant = 1) (t : Term) (reads : ∀ name ∈ t.names, ν (keyOf name) = v name)
    {value : Value ℚ} (found : t.evaluate keyOf = .ok value) : value.Means ν v t := by
  induction t generalizing value with
  | constant k =>
    cases k with
    | int n =>
      obtain rfl := Except.ok.inj found
      exact ⟨.ofScalar _, LinearForm.value_ofScalar ν _ one⟩
    | real x =>
      obtain rfl := Except.ok.inj found
      exact ⟨.ofScalar _, LinearForm.value_ofScalar ν _ one⟩
    | string _ => cases found
  | identifier name =>
    obtain rfl := Except.ok.inj found
    exact ⟨.ofKey _, (LinearForm.value_ofKey ν _).trans (reads name (by simp [Term.names]))⟩
  | apply function args ih =>
    obtain ⟨values, evaluated, applied⟩ := Except.bind_eq_ok_iff.mp found
    rw [Term.names, Term.namesArgs_eq] at reads
    rw [evaluateArgs_eq, Except.mapM_eq_ok_iff] at evaluated
    have each : ∀ arg ∈ args, ∀ value, arg.evaluate keyOf = .ok value → value.Means ν v arg :=
      fun arg member value => ih arg member fun name inside =>
        reads name (List.mem_flatMap.mpr ⟨arg, member, inside⟩)
    have means : List.Forall₂ (fun t value => value.Means ν v t) args values :=
      ((List.forall₂_and_left _ _).mpr ⟨each, evaluated⟩).imp fun _ value h => h.1 value h.2
    simp only [Value.apply] at applied
    split at applied
    next op named =>
      rw [← Operator.name_of_ofName? named]
      exact Operator.apply_means one means applied
    next => cases applied

end NetSpec
