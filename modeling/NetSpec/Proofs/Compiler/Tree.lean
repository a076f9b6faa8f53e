import NetSpec.Proofs.Compiler.Postorder

/-!
# Trees of `and` and `or`

A term is a tree of `and` and `or` over leaves, which may be anything else. It has the
alternatives that these two say, each a list of leaves, and all leaves occur in them once and in
order. Values are flat, so under an `and` there is no room for a choice: `Term.isFlat` says that
there is none. If the leaves are atoms, this is all that evaluating the tree needs, as
`Term.evaluate_tree` says, and the value is made of the alternatives.
-/

namespace NetSpec

namespace Term

mutual

/-- The subterms that `and` and `or` join, from left to right. -/
def leaves : Term → List Term
  | .apply function args =>
    if function = Operator.all.name ∨ function = Operator.any.name then leavesArgs args
    else [.apply function args]
  | .constant value => [.constant value]
  | .identifier name => [.identifier name]

def leavesArgs : List Term → List Term
  | [] => []
  | arg :: args => leaves arg ++ leavesArgs args

end

mutual

/-- What a term says as a choice between lists of leaves: `and` has one alternative, from those of
its arguments, `or` has those of its arguments, and a leaf has itself. -/
def alternatives : Term → List (List Term)
  | .apply function args =>
    if function = Operator.all.name then [(alternativesArgs args).flatten]
    else if function = Operator.any.name then alternativesArgs args
    else [[.apply function args]]
  | .constant value => [[.constant value]]
  | .identifier name => [[.identifier name]]

def alternativesArgs : List Term → List (List Term)
  | [] => []
  | arg :: args => alternatives arg ++ alternativesArgs args

end

mutual

/-- Every `and` that the leaves are joined by has arguments with one alternative each. -/
def isFlat : Term → Bool
  | .apply function args =>
    if function = Operator.all.name then
      isFlatArgs args && args.all (·.alternatives.length == 1)
    else if function = Operator.any.name then isFlatArgs args
    else true
  | .constant _ => true
  | .identifier _ => true

def isFlatArgs : List Term → Bool
  | [] => true
  | arg :: args => isFlat arg && isFlatArgs args

end

variable {α : Type}

/-- The value of a term by the atoms of its leaves: that of a leaf is its atom, that of `and` a
conjunction, and that of `or` a disjunction. -/
def flatValue (atomOf : Term → Atom α) (t : Term) : Value α :=
  match t with
  | .apply function _ =>
    if function = Operator.all.name then .conjunction (t.alternatives.flatten.map atomOf)
    else if function = Operator.any.name then .disjunction (t.alternatives.map (·.map atomOf))
    else .atom (atomOf t)
  | _ => .atom (atomOf t)

theorem leavesArgs_eq (args : List Term) : leavesArgs args = args.flatMap leaves := by
  induction args with
  | nil => rfl
  | cons arg args ih => rw [leavesArgs, ih, List.flatMap_cons]

theorem alternativesArgs_eq (args : List Term) :
    alternativesArgs args = args.flatMap alternatives := by
  induction args with
  | nil => rfl
  | cons arg args ih => rw [alternativesArgs, ih, List.flatMap_cons]

theorem isFlatArgs_eq (args : List Term) : isFlatArgs args = args.all isFlat := by
  induction args with
  | nil => rfl
  | cons arg args ih => rw [isFlatArgs, ih, List.all_cons]

section Joined

variable (args : List Term)

@[simp] theorem leaves_all : (apply Operator.all.name args).leaves = args.flatMap leaves := by
  rw [leaves, if_pos (.inl rfl), leavesArgs_eq]

@[simp] theorem alternatives_all :
    (apply Operator.all.name args).alternatives = [(args.flatMap alternatives).flatten] := by
  rw [alternatives, if_pos rfl, alternativesArgs_eq]

@[simp] theorem isFlat_all : (apply Operator.all.name args).isFlat =
    (args.all isFlat && args.all (·.alternatives.length == 1)) := by
  rw [isFlat, if_pos rfl, isFlatArgs_eq]

@[simp] theorem flatValue_all (atomOf : Term → Atom α) :
    (apply Operator.all.name args).flatValue atomOf =
      .conjunction ((args.flatMap alternatives).flatten.map atomOf) := by
  simp [flatValue]

@[simp] theorem leaves_any : (apply Operator.any.name args).leaves = args.flatMap leaves := by
  rw [leaves, if_pos (.inr rfl), leavesArgs_eq]

@[simp] theorem alternatives_any :
    (apply Operator.any.name args).alternatives = args.flatMap alternatives := by
  rw [alternatives, if_neg (by decide), if_pos rfl, alternativesArgs_eq]

@[simp] theorem isFlat_any : (apply Operator.any.name args).isFlat = args.all isFlat := by
  rw [isFlat, if_neg (by decide), if_pos rfl, isFlatArgs_eq]

@[simp] theorem flatValue_any (atomOf : Term → Atom α) :
    (apply Operator.any.name args).flatValue atomOf =
      .disjunction ((args.flatMap alternatives).map (·.map atomOf)) := by
  rw [flatValue, if_neg (by decide), if_pos rfl, alternatives_any]

end Joined

/-- A term that is not joined by `and` or `or`. -/
structure IsLeaf (t : Term) : Prop where
  leaves : t.leaves = [t]
  alternatives : t.alternatives = [[t]]
  isFlat : t.isFlat = true
  flatValue : ∀ {α : Type} (atomOf : Term → Atom α), t.flatValue atomOf = .atom (atomOf t)

/-- Induction on the `and` and `or` above the leaves. -/
theorem tree_induction {motive : Term → Prop}
    (all : ∀ args, (∀ arg ∈ args, motive arg) → motive (.apply Operator.all.name args))
    (any : ∀ args, (∀ arg ∈ args, motive arg) → motive (.apply Operator.any.name args))
    (leaf : ∀ t, t.IsLeaf → motive t) (t : Term) : motive t := by
  induction t with
  | constant value => exact leaf _ ⟨rfl, rfl, rfl, fun _ => rfl⟩
  | identifier name => exact leaf _ ⟨rfl, rfl, rfl, fun _ => rfl⟩
  | apply function args ih =>
    by_cases isAll : function = Operator.all.name
    · exact isAll ▸ all args ih
    · by_cases isAny : function = Operator.any.name
      · exact isAny ▸ any args ih
      · refine leaf _ ⟨?_, ?_, ?_, fun atomOf => ?_⟩
        · rw [leaves, if_neg (not_or.mpr ⟨isAll, isAny⟩)]
        · rw [alternatives, if_neg isAll, if_neg isAny]
        · rw [isFlat, if_neg isAll, if_neg isAny]
        · rw [flatValue, if_neg isAll, if_neg isAny]

/-- The alternatives have the leaves, each one once, from left to right. -/
theorem flatten_alternatives (t : Term) : t.alternatives.flatten = t.leaves := by
  have joined {args : List Term} (each : ∀ arg ∈ args, arg.alternatives.flatten = arg.leaves) :
      (args.flatMap alternatives).flatten = args.flatMap leaves := by
    rw [← List.flatMap_id, List.flatMap_assoc]
    simp only [List.flatMap_id]
    exact List.flatMap_congr each
  induction t using tree_induction with
  | all args ih => simpa using joined ih
  | any args ih => simpa using joined ih
  | leaf t isLeaf => simp [isLeaf.leaves, isLeaf.alternatives]

/-- Leaves are nodes. -/
theorem leaves_subset_subterms (t : Term) : t.leaves ⊆ t.subterms := by
  have joined {function : String} {args : List Term}
      (each : ∀ arg ∈ args, arg.leaves ⊆ arg.subterms) :
      args.flatMap leaves ⊆ (apply function args).subterms := by
    intro leaf member
    obtain ⟨arg, inside, member⟩ := List.mem_flatMap.mp member
    exact subterms_subset_of_mem inside (each arg inside member)
  induction t using tree_induction with
  | all args ih => simpa using joined ih
  | any args ih => simpa using joined ih
  | leaf t isLeaf =>
    intro leaf member
    rw [isLeaf.leaves, List.mem_singleton] at member
    exact member ▸ t.self_mem_subterms

/-- The failure of an `or` without exactly one alternative under an `and`. -/
abbrev nesting : CompileError α := .unsupportedNesting Operator.any.name Operator.all.name

theorem toRows_flatValue (atomOf : Term → Atom α) (t : Term) :
    (t.flatValue atomOf).toRows = if t.alternatives.length == 1 then
      .ok (t.alternatives.flatten.map atomOf) else .error nesting := by
  induction t using tree_induction with
  | all args _ => simp [Value.toRows]
  | any args _ =>
    rw [flatValue_any, alternatives_any]
    cases args.flatMap alternatives with
    | nil => rfl
    | cons first others =>
      cases others with
      | nil => simp [Value.toRows]
      | cons second others => simp [Value.toRows]
  | leaf t isLeaf => simp [isLeaf.flatValue, isLeaf.alternatives, Value.toRows]

theorem toAlternatives_flatValue (atomOf : Term → Atom α) (t : Term) :
    (t.flatValue atomOf).toAlternatives = .ok (t.alternatives.map (·.map atomOf)) := by
  induction t using tree_induction with
  | all args _ => simp [Value.toAlternatives]
  | any args _ => simp [Value.toAlternatives]
  | leaf t isLeaf => simp [isLeaf.flatValue, isLeaf.alternatives, Value.toAlternatives]

theorem mapM_toRows (atomOf : Term → Atom α) (args : List Term) :
    (args.map (flatValue atomOf)).mapM (·.toRows) =
      if args.all (·.alternatives.length == 1) then
        .ok (args.map fun arg => arg.alternatives.flatten.map atomOf)
      else .error nesting := by
  rw [List.mapM_map]
  exact Except.mapM_eq_ite fun arg _ => toRows_flatValue atomOf arg

theorem mapM_toAlternatives (atomOf : Term → Atom α) (args : List Term) :
    (args.map (flatValue atomOf)).mapM (·.toAlternatives) =
      .ok (args.map fun arg => arg.alternatives.map (·.map atomOf)) := by
  rw [Except.mapM_eq_ok_iff, List.forall₂_map_left_iff, List.forall₂_map_right_iff]
  exact List.forall₂_same.mpr fun arg _ => toAlternatives_flatValue atomOf arg

theorem flatten_rows (atomOf : Term → Atom α) (args : List Term) :
    (args.map fun arg => arg.alternatives.flatten.map atomOf).flatten =
      (args.flatMap alternatives).flatten.map atomOf := by
  rw [List.flatMap_def, List.flatten_flatten, List.map_flatten]
  simp [Function.comp_def]

variable [Scalar α] {keyOf : String → Key}

/-- A term over leaves with atoms has a value exactly if every `and` is flat, and it has the
alternatives of the term with the atoms in place of the leaves. -/
theorem evaluate_tree {t : Term} {atomOf : Term → Atom α}
    (each : ∀ leaf ∈ t.leaves, leaf.evaluate keyOf = .ok (.atom (atomOf leaf))) :
    t.evaluate keyOf = if t.isFlat then .ok (t.flatValue atomOf) else .error nesting := by
  induction t using tree_induction with
  | all args ih =>
    rw [leaves_all] at each
    have values := Except.mapM_eq_ite fun arg member => ih arg member fun leaf inside =>
      each leaf (List.mem_flatMap.mpr ⟨arg, member, inside⟩)
    rw [evaluate_apply, values, isFlat_all, flatValue_all]
    cases args.all isFlat with
    | false => rfl
    | true =>
      show Operator.all.apply (args.map (flatValue atomOf)) = _
      rw [Operator.apply, mapM_toRows]
      cases args.all (·.alternatives.length == 1) with
      | false => rfl
      | true =>
        rw [← flatten_rows]
        rfl
  | any args ih =>
    rw [leaves_any] at each
    have values := Except.mapM_eq_ite fun arg member => ih arg member fun leaf inside =>
      each leaf (List.mem_flatMap.mpr ⟨arg, member, inside⟩)
    rw [evaluate_apply, values, isFlat_any, flatValue_any]
    cases args.all isFlat with
    | false => rfl
    | true =>
      show Operator.any.apply (args.map (flatValue atomOf)) = _
      rw [Operator.apply, mapM_toAlternatives, List.map_flatMap, List.flatMap_def]
      rfl
  | leaf t isLeaf =>
    rw [isLeaf.isFlat, isLeaf.flatValue]
    exact each t (by simp [isLeaf.leaves])

end Term

end NetSpec
