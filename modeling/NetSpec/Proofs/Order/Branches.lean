import NetSpec.Proofs.Constraint.NormalForm
import NetSpec.Proofs.Order.Renumbering

/-!
# Branches apart from their order

Asserting in another order changes the order of branches and the order inside of them, so
branches are taken as a multiset of multisets here. What stands in them is the image of each
constraint under a function, so that branches can be compared whose constraints are not the
same but have the same images. An assertion then multiplies the branches by its alternatives,
and this product commutes.
-/

namespace NetSpec

variable {α β : Type}

/-- The images of constraints, in no order. -/
def Conjunction.image (r : Atom α → β) (rows : Conjunction α) : Multiset β := rows.map r

/-- The images of alternatives, in no order. -/
def Disjunction.image (r : Atom α → β) (alternatives : Disjunction α) : Multiset (Multiset β) :=
  alternatives.map (Conjunction.image r)

/-- The alternatives of an assertion; there is one if its constraints all have to hold. -/
def Assertion.alternatives : Assertion α → Disjunction α
  | all rows => [rows]
  | any alternatives => alternatives

/-- Each member of one joined with each member of the other. -/
def product (branches alternatives : Multiset (Multiset β)) : Multiset (Multiset β) :=
  branches.bind fun branch => alternatives.map (branch + ·)

instance : RightCommutative (product : Multiset (Multiset β) → _) where
  right_comm branches first second := by
    simp only [product, Multiset.bind_assoc, Multiset.bind_map]
    refine Multiset.bind_congr fun branch _ => ?_
    rw [Multiset.bind_map_comm]
    simp only [add_right_comm]

@[simp] theorem Conjunction.image_append (r : Atom α → β) (rows more : Conjunction α) :
    Conjunction.image r (rows ++ more) = Conjunction.image r rows + Conjunction.image r more := by
  simp [image]

namespace Branches

/-- An assertion multiplies the branches by its alternatives. -/
theorem image_rows_assert (r : Atom α → β) (branches : Branches α) (assertion : Assertion α) :
    Disjunction.image r (branches.assert assertion).rows =
      product (Disjunction.image r branches.rows) (Disjunction.image r assertion.alternatives) := by
  have single (all : Conjunction α) : Disjunction.image r (branches.assertAll all).rows =
      product (Disjunction.image r branches.rows) (Disjunction.image r [all]) := by
    simp [Disjunction.image, rows, product, Function.comp_def, add_right_comm, add_assoc]
  have several (choice : Disjunction α) :
      Disjunction.image r ((choice.flatMap fun rows => branches.alternatives.map (rows ++ ·)).map
        (branches.common ++ ·)) =
      product (Disjunction.image r branches.rows) (Disjunction.image r choice) := by
    have left : Disjunction.image r
        ((choice.flatMap fun rows => branches.alternatives.map (rows ++ ·)).map
          (branches.common ++ ·)) =
        (choice : Multiset (Conjunction α)).bind fun rows =>
          (branches.alternatives : Multiset (Conjunction α)).map fun added =>
            Conjunction.image r branches.common + Conjunction.image r added +
              Conjunction.image r rows := by
      simp [Disjunction.image, List.map_flatMap, Function.comp_def, add_right_comm, add_assoc]
    have right : product (Disjunction.image r branches.rows) (Disjunction.image r choice) =
        (branches.alternatives : Multiset (Conjunction α)).bind fun added =>
          (choice : Multiset (Conjunction α)).map fun rows =>
            Conjunction.image r branches.common + Conjunction.image r added +
              Conjunction.image r rows := by
      simp [Disjunction.image, product, rows, List.flatMap_map, Function.comp_def]
    rw [left, right, Multiset.bind_map_comm]
  cases assertion with
  | all all => exact single all
  | any choice =>
    -- Of one alternative all rows are asserted, which is the case of its own in `assert`.
    cases choice with
    | nil => exact several []
    | cons first others =>
      cases others with
      | nil => exact single first
      | cons second others => exact several (first :: second :: others)

/-- The branches of assertions are the product of their alternatives. -/
theorem image_rows_ofAssertions (r : Atom α → β) (assertions : List (Assertion α)) :
    Disjunction.image r (ofAssertions assertions).rows =
      (assertions.map fun assertion => Disjunction.image r assertion.alternatives).foldl
        product {0} := by
  induction assertions using List.reverseRecOn with
  | nil => rfl
  | append_singleton assertions last ih =>
    rw [ofAssertions_concat, image_rows_assert, ih, List.map_append, List.foldl_append]
    rfl

/-- Assertions with the same images in another order have branches with the same images in
another order. -/
theorem image_rows_perm {r r' : Atom α → β} {assertions assertions' : List (Assertion α)}
    (perm : (assertions.map fun assertion => Disjunction.image r assertion.alternatives).Perm
      (assertions'.map fun assertion => Disjunction.image r' assertion.alternatives)) :
    Disjunction.image r (ofAssertions assertions).rows =
      Disjunction.image r' (ofAssertions assertions').rows := by
  rw [image_rows_ofAssertions, image_rows_ofAssertions]
  exact perm.foldl_eq _

end Branches

namespace Assertion.Renumbered

variable {σ : Equiv.Perm Nat} {r r' : Atom α → β}

theorem image_conjunction (same : ∀ a b : Atom α, a.Renumbered σ b → r a = r' b)
    {rows rows' : Conjunction α} (h : rows.Renumbered σ rows') :
    Conjunction.image r rows = Conjunction.image r' rows' :=
  congrArg _ (forall₂_eq_iff_map_eq.mp (h.imp same))

/-- Assertions that differ by numbers have the same images if constraints do. -/
theorem image_alternatives (same : ∀ a b : Atom α, a.Renumbered σ b → r a = r' b)
    {assertion assertion' : Assertion α} (h : assertion.Renumbered σ assertion') :
    Disjunction.image r assertion.alternatives = Disjunction.image r' assertion'.alternatives := by
  have each {choice choice' : Disjunction α} (h : choice.Renumbered σ choice') :
      Disjunction.image r choice = Disjunction.image r' choice' :=
    congrArg _ (forall₂_eq_iff_map_eq.mp (h.imp fun _ _ => image_conjunction same))
  cases h with
  | all h => exact each (.cons h .nil)
  | any h => exact each h

end Assertion.Renumbered

end NetSpec
