import NetSpec.Constraint.LinearForm

/-!
# Branches of a disjunctive normal form

What has been asserted is kept as a disjunction of conjunctions, the branches. Constraints
asserted outside of any disjunction are common to all branches and kept apart. A disjunction
multiplies the branches by its alternatives; with one alternative it is a conjunction.
-/

namespace NetSpec

/-- Constraints that hold together, in order. -/
abbrev Conjunction (α : Type) := List (Atom α)

/-- Alternatives of which one holds, in order. -/
abbrev Disjunction (α : Type) := List (Conjunction α)

/-- The branches of what has been asserted: what is common to all, and what each adds. -/
structure Branches (α : Type) where
  common : Conjunction α
  alternatives : Disjunction α

namespace Branches

variable {α : Type}

/-- Nothing asserted: one branch without constraints. -/
def initial : Branches α := ⟨[], [[]]⟩

/-- Assert constraints that hold in every branch. -/
def assertAll (branches : Branches α) (rows : Conjunction α) : Branches α :=
  { branches with common := branches.common ++ rows }

/-- Assert a disjunction. Each alternative joins each branch, and its constraints come
first. -/
def assertAny (branches : Branches α) : Disjunction α → Branches α
  | [rows] => branches.assertAll rows
  | alternatives =>
    { branches with
      alternatives := alternatives.flatMap fun rows => branches.alternatives.map (rows ++ ·) }

/-- The constraints of every branch, the common ones first. -/
def rows (branches : Branches α) : Disjunction α :=
  branches.alternatives.map (branches.common ++ ·)

@[simp] theorem rows_initial : (initial : Branches α).rows = [[]] := rfl

@[simp] theorem common_assertAll (branches : Branches α) (rows : Conjunction α) :
    (branches.assertAll rows).common = branches.common ++ rows := rfl

@[simp] theorem alternatives_assertAll (branches : Branches α) (rows : Conjunction α) :
    (branches.assertAll rows).alternatives = branches.alternatives := rfl

@[simp] theorem assertAny_singleton (branches : Branches α) (rows : Conjunction α) :
    branches.assertAny [rows] = branches.assertAll rows := rfl

end Branches

end NetSpec
