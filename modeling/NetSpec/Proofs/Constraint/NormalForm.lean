import NetSpec.Constraint.Branches
import NetSpec.Proofs.Result

/-!
# The closed form of asserted branches

Branches come about by a sequence of assertions. What is asserted outside of any choice is
common to all branches, and a disjunction with other than one alternative is a choice. The
closed form of the branches is the list of all selections of one alternative for each choice.
`List.sections` enumerates selections with the first choice varying fastest, which is the
order of the branches; inside a branch the alternatives stand from the latest choice to the
first.

The closed form is an invariant of the sequence of assertions, carried from one assertion to
the next by `common_assert` and `alternatives_assert`. Counting branches and reading them as
a disjunction of conjunctions are facts about sections from there on.
-/

namespace NetSpec

/-- One assertion: constraints that all hold, or alternatives of which one holds. -/
inductive Assertion (α : Type) where
  | all (rows : Conjunction α)
  | any (alternatives : Disjunction α)

namespace Assertion

variable {α : Type}

/-- The constraints asserted outside of any choice. A single alternative is no choice. -/
def common : Assertion α → Conjunction α
  | all rows => rows
  | any [rows] => rows
  | any _ => []

/-- The choice that an assertion leaves, if it leaves one. -/
def choice? : Assertion α → Option (Disjunction α)
  | all _ => none
  | any [_] => none
  | any alternatives => some alternatives

/-- The constraints that an assertion is about. -/
def atoms : Assertion α → List (Atom α)
  | all rows => rows
  | any alternatives => alternatives.flatten

/-- What an assertion says once every constraint is known to hold or not. -/
def Holds (truth : Atom α → Prop) : Assertion α → Prop
  | all rows => ∀ atom ∈ rows, truth atom
  | any alternatives => ∃ rows ∈ alternatives, ∀ atom ∈ rows, truth atom

/-- An assertion holds when its common constraints do and its choice can be met. -/
theorem holds_iff (truth : Atom α → Prop) (assertion : Assertion α) :
    assertion.Holds truth ↔ (∀ atom ∈ assertion.common, truth atom) ∧
      ∀ choice ∈ assertion.choice?, ∃ rows ∈ choice, ∀ atom ∈ rows, truth atom := by
  match assertion with
  | all rows => simp [Holds, common, choice?]
  | any [] => simp [Holds, common, choice?]
  | any [rows] => simp [Holds, common, choice?]
  | any (first :: second :: others) => simp [Holds, common, choice?]

theorem mem_atoms_of_mem_common {assertion : Assertion α} {atom : Atom α}
    (member : atom ∈ assertion.common) : atom ∈ assertion.atoms := by
  match assertion with
  | all rows => exact member
  | any [] => exact member
  | any [rows] => simpa [atoms, common] using member
  | any (first :: second :: others) => simp [common] at member

theorem mem_atoms_of_choice {assertion : Assertion α} {choice : Disjunction α}
    (chosen : assertion.choice? = some choice) {rows : Conjunction α} (member : rows ∈ choice)
    {atom : Atom α} (inRows : atom ∈ rows) : atom ∈ assertion.atoms := by
  have alternatives : assertion = any choice := by
    match assertion with
    | any [] => exact congrArg any (Option.some.inj chosen)
    | any (first :: second :: others) => exact congrArg any (Option.some.inj chosen)
  rw [alternatives]
  exact List.mem_flatten.mpr ⟨rows, member, inRows⟩

end Assertion

namespace Branches

variable {α : Type}

/-- The branches after one more assertion. -/
def assert (branches : Branches α) : Assertion α → Branches α
  | .all rows => branches.assertAll rows
  | .any alternatives => branches.assertAny alternatives

/-- The branches after a sequence of assertions. -/
def ofAssertions (assertions : List (Assertion α)) : Branches α :=
  assertions.foldl assert initial

/-- The constraints that a sequence of assertions makes common, in order. -/
def commonOf (assertions : List (Assertion α)) : Conjunction α :=
  assertions.flatMap Assertion.common

/-- The choices that a sequence of assertions leaves, in order. -/
def choicesOf (assertions : List (Assertion α)) : List (Disjunction α) :=
  assertions.filterMap Assertion.choice?

/-- The constraints that a selection adds to the common ones: the latest choice first. -/
def selected (selection : List (Conjunction α)) : Conjunction α :=
  selection.reverse.flatten

theorem mem_selected {selection : List (Conjunction α)} {atom : Atom α} :
    atom ∈ selected selection ↔ ∃ rows ∈ selection, atom ∈ rows := by
  simp [selected]

theorem ofAssertions_concat (assertions : List (Assertion α)) (last : Assertion α) :
    ofAssertions (assertions ++ [last]) = (ofAssertions assertions).assert last :=
  List.foldl_concat ..

/-- One assertion appends the constraints that it makes common. -/
theorem common_assert (branches : Branches α) (assertion : Assertion α) :
    (branches.assert assertion).common = branches.common ++ assertion.common := by
  match assertion with
  | .all rows => rfl
  | .any [] => exact (List.append_nil _).symm
  | .any [rows] => rfl
  | .any (first :: second :: others) => exact (List.append_nil _).symm

/-- One assertion multiplies the alternatives by its choice. -/
theorem alternatives_assert (branches : Branches α) (assertion : Assertion α) :
    (branches.assert assertion).alternatives = match assertion.choice? with
      | none => branches.alternatives
      | some choice => choice.flatMap fun rows => branches.alternatives.map (rows ++ ·) := by
  match assertion with
  | .all rows => rfl
  | .any [] => rfl
  | .any [rows] => rfl
  | .any (first :: second :: others) => rfl

theorem common_ofAssertions (assertions : List (Assertion α)) :
    (ofAssertions assertions).common = commonOf assertions := by
  induction assertions using List.reverseRecOn with
  | nil => rfl
  | append_singleton assertions last ih =>
    rw [ofAssertions_concat, common_assert, ih]
    simp [commonOf]

end Branches

/-- The last of several lists varies slowest in the sections. -/
theorem sections_concat {β : Type} (lists : List (List β)) (last : List β) :
    (lists ++ [last]).sections = last.flatMap fun b => lists.sections.map (· ++ [b]) := by
  induction lists with
  | nil => simp [List.sections, List.map_eq_flatMap]
  | cons list lists ih =>
    rw [List.cons_append, List.sections, ih, List.flatMap_assoc]
    simp [List.sections, List.flatMap_map, List.map_flatMap, Function.comp_def]

namespace Branches

variable {α : Type}

theorem alternatives_ofAssertions (assertions : List (Assertion α)) :
    (ofAssertions assertions).alternatives = (choicesOf assertions).sections.map selected := by
  induction assertions using List.reverseRecOn with
  | nil => rfl
  | append_singleton assertions last ih =>
    rw [ofAssertions_concat, alternatives_assert, ih]
    cases chosen : last.choice? with
    | none => simp [choicesOf, chosen]
    | some choice =>
      have later : choicesOf (assertions ++ [last]) = choicesOf assertions ++ [choice] := by
        simp [choicesOf, chosen]
      rw [later, sections_concat]
      simp [List.map_flatMap, selected, Function.comp_def]

/-- The branches are the selections of one alternative for each choice, behind what is
common, with the first choice varying fastest. -/
theorem rows_ofAssertions (assertions : List (Assertion α)) :
    (ofAssertions assertions).rows =
      (choicesOf assertions).sections.map fun selection =>
        commonOf assertions ++ selected selection := by
  rw [rows, common_ofAssertions, alternatives_ofAssertions, List.map_map]
  rfl

/-- Common constraints are constraints of what has been asserted. -/
theorem mem_atoms_of_mem_common {assertions : List (Assertion α)} {atom : Atom α}
    (member : atom ∈ (ofAssertions assertions).common) :
    ∃ assertion ∈ assertions, atom ∈ assertion.atoms := by
  rw [common_ofAssertions] at member
  obtain ⟨assertion, asserted, inCommon⟩ := List.mem_flatMap.mp member
  exact ⟨assertion, asserted, Assertion.mem_atoms_of_mem_common inCommon⟩

/-- So are those of alternatives. -/
theorem mem_atoms_of_mem_alternatives {assertions : List (Assertion α)} {rows : Conjunction α}
    (alternative : rows ∈ (ofAssertions assertions).alternatives) {atom : Atom α}
    (member : atom ∈ rows) : ∃ assertion ∈ assertions, atom ∈ assertion.atoms := by
  rw [alternatives_ofAssertions] at alternative
  obtain ⟨selection, selects, rfl⟩ := List.mem_map.mp alternative
  obtain ⟨chosen, inSelection, inRows⟩ := mem_selected.mp member
  obtain ⟨choice, left, inChoice⟩ :=
    exists_mem_of_forall₂ (List.mem_sections.mp selects) inSelection
  obtain ⟨assertion, asserted, chosen⟩ := List.mem_filterMap.mp left
  exact ⟨assertion, asserted, Assertion.mem_atoms_of_choice chosen inChoice inRows⟩

/-- Branches hold nothing but constraints of what has been asserted. -/
theorem mem_atoms_of_mem_rows {assertions : List (Assertion α)} {rows : Conjunction α}
    (branch : rows ∈ (ofAssertions assertions).rows) {atom : Atom α} (member : atom ∈ rows) :
    ∃ assertion ∈ assertions, atom ∈ assertion.atoms := by
  obtain ⟨alternative, listed, rfl⟩ := List.mem_map.mp branch
  rcases List.mem_append.mp member with common | chosen
  · exact mem_atoms_of_mem_common common
  · exact mem_atoms_of_mem_alternatives listed chosen

theorem length_alternatives_ofAssertions (assertions : List (Assertion α)) :
    (ofAssertions assertions).alternatives.length =
      ((choicesOf assertions).map List.length).prod := by
  rw [alternatives_ofAssertions, List.length_map]
  induction choicesOf assertions with
  | nil => rfl
  | cons choice choices ih =>
    simp [List.sections, List.length_flatMap, ih, Nat.mul_comm]

/-- Some selection has all its constraints true when every choice can be met. -/
theorem exists_selected_iff (truth : Atom α → Prop) (choices : List (Disjunction α)) :
    (∃ selection ∈ choices.sections, ∀ atom ∈ selected selection, truth atom) ↔
      ∀ choice ∈ choices, ∃ rows ∈ choice, ∀ atom ∈ rows, truth atom := by
  simp only [mem_selected]
  induction choices with
  | nil => simp [List.sections]
  | cons choice choices ih =>
    rw [List.forall_mem_cons, ← ih]
    simp only [List.sections, List.mem_flatMap, List.mem_map]
    constructor
    · rintro ⟨_, ⟨selection, chosen, rows, member, rfl⟩, holds⟩
      refine ⟨⟨rows, member, fun atom inRows => holds atom ⟨rows, by simp, inRows⟩⟩,
        selection, chosen, ?_⟩
      rintro atom ⟨other, inSelection, inOther⟩
      exact holds atom ⟨other, by simp [inSelection], inOther⟩
    · rintro ⟨⟨rows, member, first⟩, selection, chosen, others⟩
      refine ⟨rows :: selection, ⟨selection, chosen, rows, member, rfl⟩, ?_⟩
      rintro atom ⟨other, inSelection, inOther⟩
      rcases List.mem_cons.mp inSelection with rfl | inSelection
      · exact first atom inOther
      · exact others atom ⟨other, inSelection, inOther⟩

/-- Some branch has all its constraints true when everything asserted holds. -/
theorem exists_rows_iff (truth : Atom α → Prop) (assertions : List (Assertion α)) :
    (∃ rows ∈ (ofAssertions assertions).rows, ∀ atom ∈ rows, truth atom) ↔
      ∀ assertion ∈ assertions, assertion.Holds truth := by
  have split : (∃ rows ∈ (ofAssertions assertions).rows, ∀ atom ∈ rows, truth atom) ↔
      (∀ atom ∈ commonOf assertions, truth atom) ∧
        ∃ selection ∈ (choicesOf assertions).sections,
          ∀ atom ∈ selected selection, truth atom := by
    simp only [rows_ofAssertions, List.mem_map, exists_exists_and_eq_and, List.forall_mem_append]
    constructor
    · rintro ⟨selection, chosen, common, added⟩
      exact ⟨common, selection, chosen, added⟩
    · rintro ⟨common, selection, chosen, added⟩
      exact ⟨selection, chosen, common, added⟩
  rw [split, exists_selected_iff]
  simp only [Assertion.holds_iff, commonOf, choicesOf, List.mem_flatMap, List.mem_filterMap,
    Option.mem_def]
  constructor
  · rintro ⟨common, choices⟩ assertion asserted
    exact ⟨fun atom inCommon => common atom ⟨assertion, asserted, inCommon⟩,
      fun choice left => choices choice ⟨assertion, asserted, left⟩⟩
  · intro holds
    constructor
    · rintro atom ⟨assertion, asserted, inCommon⟩
      exact (holds assertion asserted).1 atom inCommon
    · rintro choice ⟨assertion, asserted, left⟩
      exact (holds assertion asserted).2 choice left

/-- The branches of a sequence of assertions are its disjunctive normal form: exactly the
selections, as many as the alternatives multiply to, with the meaning of all that has been
asserted. -/
theorem ofAssertions_normalForm (assertions : List (Assertion α)) :
    (ofAssertions assertions).rows =
        ((choicesOf assertions).sections.map fun selection =>
          commonOf assertions ++ selection.reverse.flatten) ∧
      (ofAssertions assertions).alternatives.length =
        ((choicesOf assertions).map List.length).prod ∧
      ∀ truth : Atom α → Prop,
        (∃ rows ∈ (ofAssertions assertions).rows, ∀ atom ∈ rows, truth atom) ↔
          ∀ assertion ∈ assertions, assertion.Holds truth :=
  ⟨rows_ofAssertions assertions, length_alternatives_ofAssertions assertions,
    fun truth => exists_rows_iff truth assertions⟩

end Branches

end NetSpec
