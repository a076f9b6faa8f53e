import NetSpec.Proofs.Exact.Meaning

/-!
# Compiling keeps what a script says

Two vectors and an assignment of numbers to names belong together when names of components
have the components for numbers. Over exact numbers the properties of a script then hold of
the vectors exactly if all asserted terms are true under the assignment. That is
`Script.compile_contains_iff`, and it puts no condition on the names that are no components:
where compiling succeeds, they have cancelled out.
-/

namespace NetSpec

namespace Configuration

variable (config : Configuration)

/-- Numbers for names that give components of the vectors their numbers. Components that a
vector does not have share their number if they share their key. -/
structure Assigns (x y : List ℚ) (v : String → ℚ) : Prop where
  input : ∀ name i, indexIn? config.inputName name = some i → ∀ inside : i < x.length,
    v name = x[i]
  output : ∀ name j, indexIn? config.inputName name = none →
    indexIn? config.outputName name = some j → ∀ inside : j < y.length, v name = y[j]
  outside : ∀ a b key, config.component? a = some key → config.component? b = some key →
    v a = v b

/-- The components of vectors, and zero for everything else. -/
def componentOf (x y : List ℚ) : Key → ℚ
  | .constant => 1
  | .input i => x.getD i 0
  | .output j => y.getD j 0
  | .other _ => 0

variable {config}

/-- What is no number of another name is the key of a component. -/
theorem component?_of_keyIn {others : List String} {name : String} {key : Key}
    (keyed : config.keyIn others name = key) (component : ∀ id, key ≠ .other id) :
    config.component? name = some key := by
  simp only [keyIn] at keyed
  cases found : config.component? name with
  | some key' =>
    rw [found] at keyed
    exact congrArg some keyed
  | none =>
    rw [found] at keyed
    exact absurd keyed.symm (component _)

theorem keyIn_ne_constant (others : List String) (name : String) :
    config.keyIn others name ≠ .constant := by
  intro constant
  have found := component?_of_keyIn constant nofun
  rcases component?_cases found with ⟨i, _, same⟩ | ⟨j, _, _, same⟩
  · cases same
  · cases same

theorem indexIn?_of_keyIn_input {others : List String} {name : String} {i : Nat}
    (key : config.keyIn others name = .input i) : indexIn? config.inputName name = some i := by
  have found := component?_of_keyIn key nofun
  rcases component?_cases found with ⟨i', read, same⟩ | ⟨j, _, _, same⟩
  · rw [read, Key.input.inj same]
  · cases same

theorem indexIn?_of_keyIn_output {others : List String} {name : String} {j : Nat}
    (key : config.keyIn others name = .output j) :
    indexIn? config.inputName name = none ∧ indexIn? config.outputName name = some j := by
  have found := component?_of_keyIn key nofun
  rcases component?_cases found with ⟨i, _, same⟩ | ⟨j', unread, read, same⟩
  · cases same
  · exact ⟨unread, by rw [read, Key.output.inj same]⟩

/-- Two vectors have numbers for all names that belong to them. -/
theorem assigns_componentOf (config : Configuration) (x y : List ℚ) :
    config.Assigns x y fun name => componentOf x y ((config.component? name).getD .constant) where
  input name i read inside := by simp [component?, read, componentOf, inside]
  output name j unread read inside := by simp [component?, unread, read, componentOf, inside]
  outside a b key foundA foundB := by rw [foundA, foundB]

/-- Names with the same key have the same number. -/
theorem Assigns.eq_of_keyIn {x y : List ℚ} {v : String → ℚ} (assigned : config.Assigns x y v)
    {others : List String} {a b : String} (knownA : config.Knows others a)
    (same : config.keyIn others a = config.keyIn others b) : v a = v b := by
  by_cases component : ∃ id, config.keyIn others a = .other id
  · obtain ⟨id, key⟩ := component
    have listed : a ∈ others := by
      simpa [Knows, component?_of_keyIn_other key] using knownA
    have positionA := idxOf_of_keyIn_other key
    have positionB := idxOf_of_keyIn_other (same ▸ key)
    rw [(List.idxOf_inj listed).mp (positionA.trans positionB.symm)]
  · rw [not_exists] at component
    have foundA := component?_of_keyIn rfl component
    have foundB := component?_of_keyIn same.symm component
    exact assigned.outside a b _ foundA foundB

/-- Numbers for names that belong to vectors come from a valuation of keys that does. -/
theorem Assigns.exists_reads {x y : List ℚ} {v : String → ℚ} (assigned : config.Assigns x y v)
    (others : List String) :
    ∃ ν, Reads ν x y ∧ ∀ name, config.Knows others name → ν (config.keyIn others name) = v name := by
  let keyOf : { name // config.Knows others name } → Key := fun name => config.keyIn others name
  let number : { name // config.Knows others name } → ℚ := fun name => v name
  have determined : number.FactorsThrough keyOf :=
    fun a b same => assigned.eq_of_keyIn a.2 same
  have at_name (name : { name // config.Knows others name }) :
      Function.extend keyOf number (componentOf x y) (keyOf name) = v name :=
    determined.extend_apply _ name
  refine ⟨Function.extend keyOf number (componentOf x y), ⟨?_, ?_, ?_⟩, ?_⟩
  · refine Function.extend_apply' _ _ _ ?_
    rintro ⟨name, constant⟩
    exact keyIn_ne_constant others name constant
  · intro i inside
    by_cases named : ∃ name, keyOf name = .input i
    · obtain ⟨name, key⟩ := named
      rw [← key, at_name]
      exact assigned.input name i (indexIn?_of_keyIn_input key) inside
    · rw [Function.extend_apply' _ _ _ named]
      simp [componentOf, inside]
  · intro j inside
    by_cases named : ∃ name, keyOf name = .output j
    · obtain ⟨name, key⟩ := named
      obtain ⟨unread, read⟩ := indexIn?_of_keyIn_output key
      rw [← key, at_name]
      exact assigned.output name j unread read inside
    · rw [Function.extend_apply' _ _ _ named]
      simp [componentOf, inside]
  · intro name known
    exact at_name ⟨name, known⟩

end Configuration

/-- A value that can be asserted asserts what its term says. -/
theorem Value.assertion_means {ν : Key → ℚ} {v : String → ℚ} {t : Term} {value : Value ℚ}
    {assertion : Assertion ℚ} (means : value.Means ν v t)
    (found : value.assertion = .ok assertion) :
    (∀ atom ∈ assertion.atoms, atom.form.Canonical) ∧
      (assertion.Holds (·.Holds ν) ↔ t.Holds v) := by
  cases value with
  | expression form => cases found
  | atom a =>
    obtain rfl := Except.ok.inj found
    exact ⟨means.canonical, means.holds⟩
  | conjunction rows =>
    obtain rfl := Except.ok.inj found
    exact ⟨means.canonical, means.holds⟩
  | disjunction alternatives =>
    obtain rfl := Except.ok.inj found
    refine ⟨fun atom member => ?_, means.holds⟩
    obtain ⟨rows, listed, inRows⟩ := List.mem_flatten.mp member
    exact means.canonical rows listed atom inRows

namespace Script

variable {s : Script} {config : Configuration}

/-- The properties of a script hold of two vectors exactly if all that the script asserts is
true when names of components have the components for numbers. -/
theorem compile_contains_iff {properties : List (Property ℚ)}
    (compiled : s.compile config = .ok properties) {x y : List ℚ}
    (inputs : x.length = (s.dimensions config).inputSize)
    (outputs : y.length = (s.dimensions config).outputSize) {v : String → ℚ}
    (assigned : config.Assigns x y v) :
    (∀ t ∈ s.asserted, t.Holds v) ↔
      ∃ p ∈ properties, p.box.Contains x ∧ ∃ q ∈ p.polytopes, q.Contains y := by
  rw [compile_eq] at compiled
  obtain ⟨assertions, evaluated, assembled⟩ := Except.bind_eq_ok_iff.mp compiled
  obtain ⟨ν, reads, agrees⟩ := assigned.exists_reads (s.others config)
  have each : ∀ t ∈ s.asserted, ∀ assertion, t.assertion (s.keyOf config) = .ok assertion →
      (∀ atom ∈ assertion.atoms, atom.form.Canonical) ∧
        (assertion.Holds (·.Holds ν) ↔ t.Holds v) := by
    intro t asserted assertion found
    obtain ⟨value, valued, asserts⟩ := Except.bind_eq_ok_iff.mp found
    have means := t.evaluate_means reads.constant
      (fun name member => agrees name (s.knows_of_mem_asserted config asserted member [])) valued
    exact Value.assertion_means means asserts
  have matched := (List.forall₂_and_left _ _).mpr ⟨each, Except.mapM_eq_ok_iff.mp evaluated⟩
  have canonical : ∀ rows ∈ (Branches.ofAssertions assertions).rows, ∀ atom ∈ rows,
      atom.form.Canonical := by
    intro rows branch atom member
    obtain ⟨assertion, asserted, inAssertion⟩ := Branches.mem_atoms_of_mem_rows branch member
    obtain ⟨t, _, means, found⟩ := exists_mem_of_forall₂ matched.flip asserted
    exact (means assertion found).1 atom inAssertion
  have asserted : (∀ t ∈ s.asserted, t.Holds v) ↔
      ∀ assertion ∈ assertions, assertion.Holds (·.Holds ν) := by
    constructor
    · intro holds assertion asserted
      obtain ⟨t, member, means, found⟩ := exists_mem_of_forall₂ matched.flip asserted
      exact (means assertion found).2.mpr (holds t member)
    · intro holds t member
      obtain ⟨assertion, asserted, means, found⟩ := exists_mem_of_forall₂ matched member
      exact (means assertion found).2.mp (holds assertion asserted)
  rw [asserted, ← Branches.exists_rows_iff]
  exact (Branches.properties_contain_iff reads inputs outputs canonical assembled).symm

/-- A bound on an input in which another name cancels out, and a choice. -/
def bounded : Script where
  commands := [
    .declareConst "X_0" "Real",
    .declareConst "Y_0" "Real",
    .declareConst "slack" "Real",
    .assert (.apply "<=" [
      .apply "+" [.apply "*" [.constant (.int 2), .identifier "X_0"],
        .apply "-" [.identifier "slack", .identifier "slack"]],
      .constant (.int 6)]),
    .assert (.apply "or" [
      .apply ">=" [.identifier "Y_0", .constant (.int 1)],
      .apply "<=" [.identifier "X_0", .constant (.int 1)]])]

theorem compile_bounded_contains_iff :
    let properties : List (Property ℚ) := [
      ⟨⟨[⟨.bottom, .number 3⟩]⟩, [⟨[⟨[-1], -1⟩]⟩]⟩, ⟨⟨[⟨.bottom, .number 1⟩]⟩, [⟨[]⟩]⟩]
    let v := fun name => Configuration.componentOf [2] [5]
      ((Configuration.component? {} name).getD .constant)
    bounded.compile {} = .ok properties ∧
      [2].length = (bounded.dimensions {}).inputSize ∧
      [5].length = (bounded.dimensions {}).outputSize ∧
      Configuration.Assigns {} [2] [5] v ∧
      ((∀ t ∈ bounded.asserted, t.Holds v) ↔
        ∃ p ∈ properties, p.box.Contains [2] ∧ ∃ q ∈ p.polytopes, q.Contains [5]) := by
  intro properties v
  have compiled : bounded.compile {} = .ok properties := by cbv
  have inputs : [(2 : ℚ)].length = (bounded.dimensions {}).inputSize := by decide
  have outputs : [(5 : ℚ)].length = (bounded.dimensions {}).outputSize := by decide
  have assigned := Configuration.assigns_componentOf {} [2] [5]
  exact ⟨compiled, inputs, outputs, assigned, compile_contains_iff compiled inputs outputs assigned⟩

end Script

end NetSpec
