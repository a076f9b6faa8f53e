import NetSpec.Proofs.Number.Quotient
import NetSpec.Proofs.Property.Refusal
import NetSpec.Proofs.Property.Role
import NetSpec.Proofs.Property.Tightest

/-!
# Regions are what their constraints say

A region is made in one pass over the constraints of a branch. What it is to be can be said of
them all at once: the first constraint that is refused decides, and only where none is, one that
never holds. Otherwise the box lies within the bounds of the constraints on inputs and is not
tighter than they are, and the polytope has a row for each constraint on outputs.
-/

namespace NetSpec

open Binary64

/-- A constraint with one finite coefficient a key, and none that is zero for a variable. -/
structure Atom.IsFinite (atom : Atom Float) : Prop where
  ordered : atom.form.Ordered
  finite : ∀ term ∈ atom.form.terms, isFinite term.2 = true
  nonzero : ∀ term ∈ atom.form.variableTerms, (term.2 == 0.0) = false

namespace Atom

instance (atom : Atom Float) : Decidable atom.IsFinite :=
  decidable_of_iff (atom.form.terms.Pairwise (fun a b : Key × Float => a.1 < b.1) ∧
      (∀ term ∈ atom.form.terms, isFinite term.2 = true) ∧
      ∀ term ∈ atom.form.variableTerms, (term.2 == 0.0) = false)
    ⟨fun ⟨ordered, finite, nonzero⟩ => ⟨ordered, finite, nonzero⟩,
      fun ⟨ordered, finite, nonzero⟩ => ⟨ordered, finite, nonzero⟩⟩

/-- The constraint does not depend on a variable, and it does not hold. -/
def IsContradiction (atom : Atom Float) : Prop :=
  atom.form.isConstant = true ∧ 0.0 < atom.form.constantTerm

/-- There is an output in the constraint. -/
def hasOutput (atom : Atom Float) : Bool := atom.form.terms.any (·.1.outputIndex?.isSome)

/-- The end at which the constraint bounds an input with the coefficient `c`. -/
def limit (atom : Atom Float) (c : Float) : End Float :=
  .ofScalar (if atom.form.constantTerm == 0.0 then 0.0 else -atom.form.constantTerm / c)

/-- The lower bounds that the constraint puts on an input. -/
def lowers (atom : Atom Float) (index : Nat) : Set (End Float) :=
  {low | ∃ c, (.input index, c) ∈ atom.form.terms ∧ c < 0.0 ∧ low = atom.limit c}

/-- The upper bounds that the constraint puts on an input. -/
def uppers (atom : Atom Float) (index : Nat) : Set (End Float) :=
  {high | ∃ c, (.input index, c) ∈ atom.form.terms ∧ 0.0 < c ∧ high = atom.limit c}

end Atom

/-- A row has the coefficients of the outputs in their places, and zero in the other places. -/
structure Row.Describes (row : Row Float) (atom : Atom Float) (outputSize : Nat) : Prop where
  length : row.coefficients.length = outputSize
  coefficient : ∀ j c, (.output j, c) ∈ atom.form.terms → row.coefficients[j]? = some c
  absent : ∀ j < outputSize, ¬ atom.form.Mentions (.output j) → row.coefficients[j]? = some 0.0
  rhs : row.rhs = if atom.form.constantTerm == 0.0 then 0.0 else -atom.form.constantTerm

/-- A region has the tightest box within the bounds of the constraints, and the constraints with
outputs as the rows of its polytope. -/
structure Region.Describes (region : Region Float) (rows : Conjunction Float) (dims : Dimensions) :
    Prop where
  size : region.box.intervals.length = dims.inputSize
  bounds : ∀ (i : Nat) (interval : Interval Float), region.box.intervals[i]? = some interval →
    interval.IsTightest (insert .bottom {low | ∃ atom ∈ rows, low ∈ atom.lowers i})
      (insert .top {high | ∃ atom ∈ rows, high ∈ atom.uppers i})
  polytope : List.Forall₂ (fun atom row => row.Describes atom dims.outputSize)
    (rows.filter (·.hasOutput)) region.polytope.rows

namespace Atom

instance (atom : Atom Float) : Decidable atom.IsContradiction :=
  inferInstanceAs (Decidable (_ ∧ _))

variable {atom : Atom Float} {dims : Dimensions} {role : Role Float}

/-- The constant of a constraint is finite. -/
theorem isFinite_constantTerm (finite : atom.IsFinite) :
    isFinite atom.form.constantTerm = true := by
  cases found : atom.form.find? .constant with
  | none =>
    rw [LinearForm.constantTerm, LinearForm.coefficient, found]
    decide +kernel
  | some k =>
    rw [LinearForm.constantTerm, LinearForm.coefficient, found]
    exact finite.finite _ ((LinearForm.find?_eq_some_iff finite.ordered).mp found)

/-- The end at a bound can be compared. -/
theorem isProper_limit (finite : atom.IsFinite) {c : Float} (finiteC : isFinite c = true)
    (nonzero : (c == 0.0) = false) : (atom.limit c).IsProper := by
  refine End.isProper_ofScalar ?_
  split
  next => decide +kernel
  next =>
    have number := isNumber_of_isFinite (isFinite_constantTerm finite)
    exact isNumber_div (isNumber_neg number) finiteC nonzero

theorem bound_eq (atom : Atom Float) (c : Float) :
    .ofScalar (Interval.bound c atom.form.constantTerm) = atom.limit c := by
  rw [limit, Interval.bound]
  rfl

theorem isProper_role (finite : atom.IsFinite) (found : atom.role dims = .ok role) :
    role.IsProper := by
  rcases role_terms_cases finite.ordered found with
    ⟨_, rfl⟩ | ⟨i, c, terms, _, rfl⟩ | ⟨_, _, rfl⟩
  · trivial
  · have member : (Key.input i, c) ∈ atom.form.variableTerms := terms ▸ List.mem_singleton_self _
    show (End.ofScalar (Interval.bound c atom.form.constantTerm)).IsProper
    rw [bound_eq]
    exact isProper_limit finite (finite.finite (.input i, c) (List.mem_filter.mp member).1)
      (finite.nonzero (.input i, c) member)
  · trivial

theorem isContradiction_role (finite : atom.IsFinite) (found : atom.role dims = .ok role) :
    role.isContradiction = true ↔ atom.IsContradiction := by
  rw [IsContradiction, LinearForm.isConstant, List.isEmpty_iff]
  rcases role_terms_cases finite.ordered found with
    ⟨none, rfl⟩ | ⟨i, c, terms, _, rfl⟩ | ⟨some, _, rfl⟩
  · exact decide_eq_true_iff.trans (and_iff_right none).symm
  · exact iff_of_false Bool.false_ne_true fun absent =>
      List.cons_ne_nil _ _ (terms.symm.trans absent.1)
  · exact iff_of_false Bool.false_ne_true fun absent => some absent.1

/-- A role bounds the inputs as its constraint does. -/
theorem bounds_role (finite : atom.IsFinite) (found : atom.role dims = .ok role) (i : Nat) :
    role.lowers i = atom.lowers i ∧ role.uppers i = atom.uppers i := by
  have member {c : Float} : (Key.input i, c) ∈ atom.form.terms ↔
      (Key.input i, c) ∈ atom.form.variableTerms := (LinearForm.mem_variableTerms (by simp)).symm
  simp only [lowers, uppers, member]
  rcases role_terms_cases finite.ordered found with
    ⟨none, rfl⟩ | ⟨j, c, terms, _, rfl⟩ | ⟨_, outputs, rfl⟩
  · simp [none, Role.lowers, Role.uppers]
  · have term : (Key.input j, c) ∈ atom.form.variableTerms := terms ▸ List.mem_singleton_self _
    have number := isNumber_of_isFinite
      (finite.finite (.input j, c) (List.mem_filter.mp term).1)
    have negative := not_zero_lt_iff number (finite.nonzero (.input j, c) term)
    simp only [Role.lowers, Role.uppers, bound_eq, negative, terms, List.mem_singleton,
      Prod.mk.injEq, Key.input.injEq, and_assoc, exists_and_left, exists_eq_left, eq_comm (a := i)]
    exact ⟨trivial, trivial⟩
  · have absent (c : Float) : (Key.input i, c) ∉ atom.form.variableTerms := by
      intro member
      obtain ⟨j, _, same⟩ := outputs _ member
      cases same
    simp [absent, Role.lowers, Role.uppers]

theorem hasOutput_iff :
    atom.hasOutput = true ↔ ∃ j c, (Key.output j, c) ∈ atom.form.variableTerms := by
  rw [hasOutput, List.any_eq_true]
  constructor
  · rintro ⟨⟨key, c⟩, member, output⟩
    obtain ⟨j, numbered⟩ := Option.isSome_iff_exists.mp output
    obtain rfl := Key.isKind_output.number?_eq_some_iff.mp numbered
    exact ⟨j, c, (LinearForm.mem_variableTerms (by simp)).mpr member⟩
  · rintro ⟨j, c, member⟩
    exact ⟨_, (LinearForm.mem_variableTerms (by simp)).mp member, rfl⟩

/-- A role is a row if there is an output in its constraint. -/
theorem row?_role (finite : atom.IsFinite) (found : atom.role dims = .ok role) :
    role.row? = if atom.hasOutput then some (atom.toRow dims.outputSize) else none := by
  rcases role_terms_cases finite.ordered found with
    ⟨none, rfl⟩ | ⟨i, c, terms, _, rfl⟩ | ⟨some, outputs, rfl⟩
  · have noOutput : ¬ atom.hasOutput = true := by simp [hasOutput_iff, none]
    exact (if_neg noOutput).symm
  · have noOutput : ¬ atom.hasOutput = true := by simp [hasOutput_iff, terms]
    exact (if_neg noOutput).symm
  · obtain ⟨⟨key, c⟩, others, terms⟩ := List.exists_cons_of_ne_nil some
    have member : (key, c) ∈ atom.form.variableTerms := terms ▸ List.mem_cons_self
    obtain ⟨j, _, rfl⟩ := outputs _ member
    exact (if_pos (hasOutput_iff.mpr ⟨j, c, member⟩)).symm

/-- The row of a constraint with outputs that there are. -/
theorem describes_toRow (finite : atom.IsFinite) (found : atom.role dims = .ok role) :
    (atom.toRow dims.outputSize).Describes atom dims.outputSize := by
  have place {j : Nat} (inside : j < dims.outputSize) :
      (atom.toRow dims.outputSize).coefficients[j]? = some (atom.form.coefficient (.output j)) := by
    simp [toRow, inside]
  have inside {j : Nat} {c : Float} (member : (Key.output j, c) ∈ atom.form.terms) :
      j < dims.outputSize := by
    have term := (LinearForm.mem_variableTerms (by simp)).mpr member
    rcases role_terms_cases finite.ordered found with
      ⟨none, _⟩ | ⟨i, c, terms, _, _⟩ | ⟨_, outputs, _⟩
    · simp [none] at term
    · simp [terms] at term
    · obtain ⟨j', inside, same⟩ := outputs _ term
      exact Key.output.inj same ▸ inside
  refine ⟨by simp [toRow], fun j c member => ?_, fun j inside absent => ?_, rfl⟩
  · rw [place (inside member), LinearForm.coefficient,
      (LinearForm.find?_eq_some_iff finite.ordered).mpr member]
    rfl
  · have none : atom.form.find? (.output j) = none := by
      rw [Option.eq_none_iff_forall_ne_some]
      intro c same
      exact absent ⟨c, (LinearForm.find?_eq_some_iff finite.ordered).mp same⟩
    rw [place inside, LinearForm.coefficient, none]
    rfl

end Atom

namespace Region

variable {rows : Conjunction Float} {dims : Dimensions} {roles : List (Role Float)}

/-- The rows of the polytope are those of the constraints with outputs, in order. -/
theorem forall₂_rows (finite : ∀ atom ∈ rows, atom.IsFinite)
    (found : List.Forall₂ (fun atom role => atom.role dims = .ok role) rows roles) :
    List.Forall₂ (fun atom row => row.Describes atom dims.outputSize)
      (rows.filter (·.hasOutput)) (roles.filterMap (·.row?)) := by
  induction found with
  | nil => exact .nil
  | @cons atom role rows roles first _ ih =>
    obtain ⟨finiteFirst, finiteOthers⟩ := List.forall_mem_cons.mp finite
    rw [List.filter_cons, List.filterMap_cons, Atom.row?_role finiteFirst first]
    split
    next => exact .cons (Atom.describes_toRow finiteFirst first) (ih finiteOthers)
    next => exact ih finiteOthers

/-- Roles have a property together if their constraints do. -/
theorem exists_role_iff {P : Role Float → Prop} {Q : Atom Float → Prop}
    (found : List.Forall₂ (fun atom role => atom.role dims = .ok role) rows roles)
    (same : ∀ atom ∈ rows, ∀ role, atom.role dims = .ok role → (P role ↔ Q atom)) :
    (∃ role ∈ roles, P role) ↔ ∃ atom ∈ rows, Q atom := by
  constructor
  · rintro ⟨role, member, held⟩
    obtain ⟨atom, inside, of⟩ := exists_mem_of_forall₂ found.flip member
    exact ⟨atom, inside, (same atom inside role of).mp held⟩
  · rintro ⟨atom, inside, held⟩
    obtain ⟨role, member, of⟩ := exists_mem_of_forall₂ found inside
    exact ⟨role, member, (same atom inside role of).mpr held⟩

/-- The region that is made from the roles of constraints is what these describe. -/
theorem describes_roles (finite : ∀ atom ∈ rows, atom.IsFinite)
    (found : List.Forall₂ (fun atom role => atom.role dims = .ok role) rows roles) :
    Describes ⟨roles.foldl Role.restrict (.unbounded dims.inputSize),
      ⟨roles.filterMap (·.row?)⟩⟩ rows dims where
  size := (Role.size_foldl_restrict _ roles).trans (Box.size_unbounded _)
  bounds i interval placed := by
    rw [Role.getElem?_foldl_restrict] at placed
    obtain ⟨start, initial, rfl⟩ := Option.map_eq_some_iff.mp placed
    obtain rfl : start = .unbounded := List.eq_of_mem_replicate (List.mem_of_getElem? initial)
    have proper : ∀ role ∈ roles, role.IsProper := by
      intro role member
      obtain ⟨atom, inside, of⟩ := exists_mem_of_forall₂ found.flip member
      exact Atom.isProper_role (finite atom inside) of
    have unbounded : (Interval.unbounded : Interval Float).IsProper := ⟨trivial, trivial⟩
    have tightest := Role.isTightest_foldl_restrictAt unbounded proper i
    have lowers (low : End Float) : (∃ role ∈ roles, low ∈ role.lowers i) ↔
        ∃ atom ∈ rows, low ∈ atom.lowers i :=
      exists_role_iff found fun atom member role of => by
        rw [(Atom.bounds_role (finite atom member) of i).1]
    have uppers (high : End Float) : (∃ role ∈ roles, high ∈ role.uppers i) ↔
        ∃ atom ∈ rows, high ∈ atom.uppers i :=
      exists_role_iff found fun atom member role of => by
        rw [(Atom.bounds_role (finite atom member) of i).2]
    simp only [lowers, uppers] at tightest
    exact tightest
  polytope := forall₂_rows finite found

/-- Constraints that are not refused all have roles. -/
theorem exists_roles (finite : ∀ atom ∈ rows, atom.IsFinite)
    (accepted : ∀ atom ∈ rows, ∀ e, ¬ atom.Refused dims e) :
    ∃ roles, rows.mapM (·.role dims) = .ok roles := by
  cases outcome : rows.mapM (·.role dims) with
  | ok roles => exact ⟨roles, rfl⟩
  | error e =>
    obtain ⟨before, atom, after, split, _, failed⟩ := Except.mapM_eq_error_iff.mp outcome
    have member : atom ∈ rows := split ▸ List.mem_append_right before List.mem_cons_self
    exact absurd ((Atom.role_eq_error_iff (finite atom member).ordered).mp failed)
      (accepted atom member e)

/-- The constraints of a branch have no region for the cause of the first one that is refused. If
none is refused, they have none exactly if one of them never holds, and otherwise the region that
they describe. -/
theorem rows_assemble (finite : ∀ atom ∈ rows, atom.IsFinite) :
    ((∃ atom ∈ rows, ∃ e, atom.Refused dims e) →
      ∃ before atom after e, rows = before ++ atom :: after ∧
        (∀ earlier ∈ before, ∀ e', ¬ earlier.Refused dims e') ∧ atom.Refused dims e ∧
        ofRows? rows dims = .error e) ∧
    ((∀ atom ∈ rows, ∀ e, ¬ atom.Refused dims e) →
      (ofRows? rows dims = .ok none ↔ ∃ atom ∈ rows, atom.IsContradiction) ∧
      ((∀ atom ∈ rows, ¬ atom.IsContradiction) →
        ∃ region, ofRows? rows dims = .ok (some region) ∧ region.Describes rows dims)) := by
  constructor
  · rintro ⟨atom, member, e, refused⟩
    cases outcome : rows.mapM (·.role dims) with
    | ok roles =>
      obtain ⟨role, _, found⟩ := exists_mem_of_forall₂ (Except.mapM_eq_ok_iff.mp outcome) member
      rw [(Atom.role_eq_error_iff (finite atom member).ordered).mpr refused] at found
      cases found
    | error e =>
      obtain ⟨before, first, after, split, fine, failed⟩ := Except.mapM_eq_error_iff.mp outcome
      have inside : first ∈ rows := split ▸ List.mem_append_right before List.mem_cons_self
      refine ⟨before, first, after, e, split, fun earlier front e' refused => ?_,
        (Atom.role_eq_error_iff (finite first inside).ordered).mp failed, ?_⟩
      · have member : earlier ∈ rows := split ▸ List.mem_append_left _ front
        obtain ⟨role, found⟩ := fine earlier front
        rw [(Atom.role_eq_error_iff (finite earlier member).ordered).mpr refused] at found
        cases found
      · rw [ofRows?, outcome]
        rfl
  · intro accepted
    obtain ⟨roles, outcome⟩ := exists_roles finite accepted
    have found := Except.mapM_eq_ok_iff.mp outcome
    have contradiction := exists_role_iff (P := (·.isContradiction = true)) found
      fun atom member role of => Atom.isContradiction_role (finite atom member) of
    have made : ofRows? rows dims = if roles.any (·.isContradiction) then .ok none else
        .ok (some ⟨roles.foldl Role.restrict (.unbounded dims.inputSize),
          ⟨roles.filterMap (·.row?)⟩⟩) := by
      rw [ofRows?, outcome]
      rfl
    rw [made, ← contradiction, ← List.any_eq_true]
    constructor
    · split
      next held => exact iff_of_true rfl held
      next notHeld =>
        exact iff_of_false (fun same => Option.some_ne_none _ (Except.ok.inj same)) notHeld
    · intro consistent
      rw [if_neg]
      · exact ⟨_, rfl, describes_roles finite found⟩
      · rw [List.any_eq_true, contradiction]
        rintro ⟨atom, member, held⟩
        exact consistent atom member held

/-- Two bounds on an input, the lower one at zero, and a row over two outputs. -/
def boundedRows : Conjunction Float := [
  ⟨⟨[(.constant, -3.0), (.input 0, 2.0)]⟩⟩,
  ⟨⟨[(.input 0, -1.0)]⟩⟩,
  ⟨⟨[(.constant, -1.0), (.output 0, 1.0), (.output 1, -1.0)]⟩⟩]

/-- A constant that is positive, and then an input together with an output. -/
def mixedRows : Conjunction Float := [
  ⟨⟨[(.constant, 1.0)]⟩⟩,
  ⟨⟨[(.input 0, 1.0), (.output 0, 1.0)]⟩⟩]

/-- The bounds make a region, and the mixed constraint is found behind the positive constant. -/
theorem rows_assemble_bounded :
    let dims : Dimensions := ⟨1, 2, []⟩
    (∀ atom ∈ boundedRows ++ mixedRows, atom.IsFinite) ∧
      (∃ region, ofRows? boundedRows dims = .ok (some region) ∧
        region.Describes boundedRows dims) ∧
      ∃ before atom after e, mixedRows = before ++ atom :: after ∧
        (∀ earlier ∈ before, ∀ e', ¬ earlier.Refused dims e') ∧ atom.Refused dims e ∧
        ofRows? mixedRows dims = .error e := by
  intro dims
  have finite : ∀ atom ∈ boundedRows ++ mixedRows, atom.IsFinite := by decide +kernel
  have bounded : ∀ atom ∈ boundedRows, atom.IsFinite :=
    fun atom member => finite atom (List.mem_append_left _ member)
  have mixed : ∀ atom ∈ mixedRows, atom.IsFinite :=
    fun atom member => finite atom (List.mem_append_right _ member)
  have accepted : ∀ atom ∈ boundedRows, ∀ e, ¬ atom.Refused dims e := by
    have found : ∀ atom ∈ boundedRows, (atom.role dims).isOk = true := by decide +kernel
    intro atom member e refused
    have role := found atom member
    rw [(Atom.role_eq_error_iff (bounded atom member).ordered).mpr refused] at role
    cases role
  have refused : ∃ atom ∈ mixedRows, ∃ e, atom.Refused dims e := by
    let atom : Atom Float := ⟨⟨[(.input 0, 1.0), (.output 0, 1.0)]⟩⟩
    have member : atom ∈ mixedRows := List.mem_cons_of_mem _ List.mem_cons_self
    exact ⟨atom, member, .mixedConstraint atom,
      (Atom.role_eq_error_iff (mixed atom member).ordered).mp rfl⟩
  exact ⟨finite, ((rows_assemble bounded).2 accepted).2 (by decide +kernel),
    (rows_assemble mixed).1 refused⟩

end Region

end NetSpec
