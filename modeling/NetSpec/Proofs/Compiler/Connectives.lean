import NetSpec.Proofs.Compiler.Tree
import NetSpec.Proofs.Order.Numbering

/-!
# What `and` and `or` make of their arguments

A tree of `and` and `or` over comparisons has a value exactly if it is flat, and the value has the
alternatives of the tree. A name or a sum under one of them has no place in a value. Then the term
fails, because of that argument unless something in front of it fails before.

A comparison has a value on all compilers of one configuration or on none, because they differ by
the numbers of names only.
-/

namespace NetSpec

section Arithmetic

variable {α : Type}

theorem Value.toRows_eq_error {value : Value α} {e : CompileError α}
    (failed : value.toRows = .error e) : e = .expectedConstraint Operator.all.name ∨
      e = Term.nesting ∧ ∃ alternatives, value = .disjunction alternatives ∧
        alternatives.length ≠ 1 := by
  match value with
  | expression form => exact .inl (Except.error.inj failed).symm
  | disjunction [] => exact .inr ⟨(Except.error.inj failed).symm, _, rfl, nofun⟩
  | disjunction (first :: second :: others) =>
    exact .inr ⟨(Except.error.inj failed).symm, _, rfl, by simp⟩

theorem Value.toAlternatives_eq_error {value : Value α} {e : CompileError α}
    (failed : value.toAlternatives = .error e) : e = .expectedConstraint Operator.any.name := by
  cases value with
  | expression form => exact (Except.error.inj failed).symm
  | atom a => cases failed
  | conjunction rows => cases failed
  | disjunction alternatives => cases failed

variable [Scalar α]

/-- An `and` or `or` of an expression fails because of it, or because of a value in front. -/
theorem Operator.apply_arithmetic {op : Operator} (connective : op = .all ∨ op = .any)
    (front : List (Value α)) (form : LinearForm α) (back : List (Value α)) :
    ∃ e, op.apply (front ++ .expression form :: back) = .error e ∧
      (e = .expectedConstraint op.name ∨ op = .all ∧ e = Term.nesting ∧
        ∃ alternatives, Value.disjunction alternatives ∈ front ∧ alternatives.length ≠ 1) := by
  have member : Value.expression form ∈ front ++ .expression form :: back := by simp
  rcases connective with rfl | rfl
  · cases outcome : (front ++ Value.expression form :: back).mapM (·.toRows) with
    | ok rows =>
      obtain ⟨_, _, found⟩ := exists_mem_of_forall₂ (Except.mapM_eq_ok_iff.mp outcome) member
      cases found
    | error e =>
      refine ⟨e, by rw [apply, outcome]; rfl, ?_⟩
      obtain ⟨before, value, after, split, fine, failed⟩ := Except.mapM_eq_error_iff.mp outcome
      rcases Value.toRows_eq_error failed with expected | ⟨nested, alternatives, rfl, several⟩
      · exact .inl expected
      · obtain ⟨_, same⟩ | inFront | early := append_cons_cases split
        · cases same
        · exact .inr ⟨rfl, nested, alternatives, inFront, several⟩
        · obtain ⟨_, found⟩ := fine _ early
          cases found
  · cases outcome : (front ++ Value.expression form :: back).mapM (·.toAlternatives) with
    | ok alternatives =>
      obtain ⟨_, _, found⟩ := exists_mem_of_forall₂ (Except.mapM_eq_ok_iff.mp outcome) member
      cases found
    | error e =>
      refine ⟨e, by rw [apply, outcome]; rfl, .inl ?_⟩
      obtain ⟨_, value, _, _, _, failed⟩ := Except.mapM_eq_error_iff.mp outcome
      exact Value.toAlternatives_eq_error failed

theorem Value.apply_name (op : Operator) (values : List (Value α)) :
    Value.apply op.name values = op.apply values := by
  cases op <;> rfl

/-- A term with an expression under an `and` or `or` fails because of it, or because of an
argument in front of it, or at a node that comes before. -/
theorem Term.evaluate_arithmetic {keyOf : String → Key} {t arg : Term} {op : Operator}
    {before after front back : List Term} {form : LinearForm α}
    (split : t.subterms = before ++ .apply op.name (front ++ arg :: back) :: after)
    (connective : op = .all ∨ op = .any)
    (arithmetic : arg.evaluate keyOf = .ok (.expression form)) :
    ∃ e : CompileError α, t.evaluate keyOf = .error e ∧
      (e = .expectedConstraint op.name ∨
        (∃ earlier ∈ before, earlier.evaluate keyOf = .error e) ∨
        op = .all ∧ e = nesting ∧ ∃ earlier ∈ front, ∃ alternatives : Disjunction α,
          earlier.evaluate keyOf = .ok (.disjunction alternatives) ∧
            alternatives.length ≠ 1) := by
  let node : Term := .apply op.name (front ++ arg :: back)
  have inside : node ∈ t.subterms := split ▸ List.mem_append_right before List.mem_cons_self
  -- Where all arguments have values, the operator fails on them.
  have applied {values : List (Value α)}
      (evaluated : (front ++ arg :: back).mapM (evaluate keyOf) = .ok values) :
      ∃ e : CompileError α, Value.apply op.name values = .error e ∧
        (e = .expectedConstraint op.name ∨ op = .all ∧ e = nesting ∧
          ∃ earlier ∈ front, ∃ alternatives : Disjunction α,
            earlier.evaluate keyOf = .ok (.disjunction alternatives) ∧
              alternatives.length ≠ 1) := by
    rw [List.mapM_append] at evaluated
    obtain ⟨inFront, first, evaluated⟩ := Except.bind_eq_ok_iff.mp evaluated
    obtain ⟨_, rest, same⟩ := Except.bind_eq_ok_iff.mp evaluated
    obtain ⟨_, behind, found, _, rfl⟩ :=
      List.forall₂_cons_left_iff.mp (Except.mapM_eq_ok_iff.mp rest)
    obtain rfl := Except.ok.inj (found.symm.trans arithmetic)
    obtain rfl := Except.ok.inj same
    obtain ⟨e, failed, cause⟩ := Operator.apply_arithmetic connective inFront form behind
    refine ⟨e, (Value.apply_name op _).trans failed, cause.imp_right ?_⟩
    rintro ⟨isAll, nested, alternatives, member, several⟩
    obtain ⟨earlier, member, found⟩ :=
      exists_mem_of_forall₂ (Except.mapM_eq_ok_iff.mp first).flip member
    exact ⟨isAll, nested, earlier, member, alternatives, found, several⟩
  have stuck (value : Value α) : node.evaluate keyOf ≠ .ok value := by
    intro done
    rw [evaluate_apply] at done
    obtain ⟨values, evaluated, made⟩ := Except.bind_eq_ok_iff.mp done
    obtain ⟨e, failed, _⟩ := applied evaluated
    cases made.symm.trans failed
  cases outcome : (t.evaluate keyOf : Except (CompileError α) (Value α)) with
  | ok value =>
    obtain ⟨value, done⟩ := exists_value_of_mem_subterms inside outcome
    exact absurd done (stuck value)
  | error e =>
    refine ⟨e, rfl, ?_⟩
    obtain ⟨before', first, after', split', fine, breaks⟩ := exists_breaks outcome
    obtain ⟨rfl, rfl⟩ | early | late := append_cons_cases (split.symm.trans split')
    · cases breaks with
      | apply evaluated failed =>
        obtain ⟨e', failed', cause⟩ := applied evaluated
        obtain rfl : e = e' := Except.error.inj (failed.symm.trans failed')
        exact cause.imp_right .inr
    · exact .inr (.inl ⟨first, early, evaluate_of_breaks breaks⟩)
    · obtain ⟨value, done⟩ := fine node late
      exact absurd done (stuck value)

end Arithmetic

/-- One of the comparisons `<=` and `>=`. -/
def Term.IsComparison (t : Term) : Prop :=
  ∃ op args, (op = Operator.atMost ∨ op = Operator.atLeast) ∧ t = .apply op.name args

section Comparison

variable {α : Type}

theorem Operator.exists_atom_of_compare {op : Operator}
    {relation : LinearForm α → LinearForm α → Atom α} {values : List (Value α)} {value : Value α}
    (found : op.compare relation values = .ok value) : ∃ a, value = .atom a := by
  obtain ⟨forms, _, made⟩ := Except.bind_eq_ok_iff.mp found
  split at made
  next a b => exact ⟨_, (Except.ok.inj made).symm⟩
  next => cases made

/-- A comparison that has a value is an atom. -/
theorem Term.IsComparison.exists_atom [Scalar α] {t : Term} (comparison : t.IsComparison)
    {keyOf : String → Key} {value : Value α} (done : t.evaluate keyOf = .ok value) :
    ∃ a, value = .atom a := by
  obtain ⟨op, args, isComparison, rfl⟩ := comparison
  rw [evaluate_apply] at done
  obtain ⟨values, _, made⟩ := Except.bind_eq_ok_iff.mp done
  rw [Value.apply_name] at made
  rcases isComparison with rfl | rfl
  · exact Operator.exists_atom_of_compare made
  · exact Operator.exists_atom_of_compare made

end Comparison

namespace Compiler

variable {α : Type} [Scalar α]

omit [Scalar α] in
/-- Whoever has noted the names of a term knows those of its nodes. -/
theorem knows_subterm (c : Compiler α) {t node : Term} (member : node ∈ t.subterms) :
    ∀ name ∈ node.names, c.config.Knows (c.noting t.names).others name :=
  fun _ named => c.config.knows_noteAll (Term.names_subset_of_mem_subterms member named) c.others

/-- A node results in its value in the whole term once all names have been noted. -/
theorem result_eval_noting {t node : Term} (c : Compiler α) (member : node ∈ t.subterms) :
    result (eval node) (c.noting t.names) =
      node.evaluate (c.config.keyIn (c.noting t.names).others) := by
  refine result_eval node (c.noting t.names) ?_
  show c.config.noteAll (c.noting t.names).others node.names <+: _
  rw [c.config.noteAll_of_knows (c.knows_subterm member)]

/-- A term has a value with the keys of any table that knows its names if it has one on some
compiler. -/
theorem exists_evaluate {t : Term} {c : Compiler α} {value : Value α}
    (done : result (eval t) c = .ok value) {table : List String}
    (known : ∀ name ∈ t.names, c.config.Knows table name) :
    ∃ σ value', t.evaluate (c.config.keyIn table) = .ok value' ∧ value.Renumbered σ value' := by
  rw [result_eval t c List.prefix_rfl] at done
  obtain ⟨σ, renumbers⟩ := c.config.exists_renumbering_of_knows
    (fun name member => c.config.knows_noteAll member c.others) known
  exact ⟨σ, (t.evaluate_renumbered renumbers).exists_ok done⟩

/-- A comparison that has a value on some compiler is an atom wherever its names are known. -/
theorem exists_atom {t : Term} {c : Compiler α} (comparison : t.IsComparison)
    (valued : (result (eval t) c).isOk = true) {table : List String}
    (known : ∀ name ∈ t.names, c.config.Knows table name) :
    ∃ a : Atom α, t.evaluate (c.config.keyIn table) = .ok (.atom a) := by
  cases outcome : result (eval t) c with
  | error e =>
    rw [outcome] at valued
    cases valued
  | ok value =>
    obtain ⟨_, value', found, _⟩ := exists_evaluate outcome known
    obtain ⟨a, rfl⟩ := comparison.exists_atom found
    exact ⟨a, found⟩

/-- A tree of `and` and `or` over comparisons that have values results in its alternatives, with the
atoms of the comparisons in order, if every `and` in it has arguments of one alternative each.
Otherwise it fails because an `or` cannot be nested under an `and`. A term with an arithmetic
argument under an `and` or `or` fails because a constraint is expected there, or for what is wrong
with a node or an argument in front. -/
theorem eval_connectives (c : Compiler α) (t : Term) :
    ((∀ leaf ∈ t.leaves, leaf.IsComparison ∧ ∃ c₀ : Compiler α, c₀.config = c.config ∧
        (result (eval leaf) c₀).isOk = true) →
      ∃ atomOf : Term → Atom α,
        (∀ leaf ∈ t.leaves, result (eval leaf) (c.noting t.names) = .ok (.atom (atomOf leaf))) ∧
        result (eval t) c = (if t.isFlat then .ok (t.flatValue atomOf)
          else .error (.unsupportedNesting Operator.any.name Operator.all.name)) ∧
        t.alternatives.flatten = t.leaves) ∧
    ∀ {before after front back : List Term} {arg : Term} {op : Operator},
      t.subterms = before ++ .apply op.name (front ++ arg :: back) :: after →
      (op = .all ∨ op = .any) →
      (∃ c₀ : Compiler α, c₀.config = c.config ∧
        ∃ form, result (eval arg) c₀ = .ok (.expression form)) →
      ∃ e, result (eval t) c = .error e ∧
        (e = .expectedConstraint op.name ∨
          (∃ earlier ∈ before, result (eval earlier) (c.noting t.names) = .error e) ∨
          op = .all ∧ e = .unsupportedNesting Operator.any.name Operator.all.name ∧
            ∃ earlier ∈ front, ∃ alternatives,
              result (eval earlier) (c.noting t.names) = .ok (.disjunction alternatives) ∧
                alternatives.length ≠ 1) := by
  constructor
  · intro comparisons
    have atoms (leaf : Term) : ∃ a : Atom α, leaf ∈ t.leaves →
        leaf.evaluate (c.config.keyIn (c.noting t.names).others) = .ok (.atom a) := by
      by_cases member : leaf ∈ t.leaves
      · obtain ⟨comparison, c₀, same, valued⟩ := comparisons leaf member
        have known := c.knows_subterm (t.leaves_subset_subterms member)
        rw [← same] at known ⊢
        obtain ⟨a, found⟩ := exists_atom comparison valued known
        exact ⟨a, fun _ => found⟩
      · exact ⟨⟨.zero⟩, fun inside => absurd inside member⟩
    choose atomOf each using atoms
    refine ⟨atomOf, fun leaf member => ?_, ?_, t.flatten_alternatives⟩
    · rw [result_eval_noting c (t.leaves_subset_subterms member)]
      exact each leaf member
    · rw [result_eval t c List.prefix_rfl]
      exact Term.evaluate_tree each
  · rintro before after front back arg op split connective ⟨c₀, same, form, done⟩
    have node : Term.apply op.name (front ++ arg :: back) ∈ t.subterms :=
      split ▸ List.mem_append_right before List.mem_cons_self
    have inside {argument : Term} (member : argument ∈ front ++ arg :: back) :
        argument ∈ t.subterms :=
      Term.subterms_subset node (Term.subterms_subset_of_mem member argument.self_mem_subterms)
    have known := c.knows_subterm (inside (List.mem_append_right front List.mem_cons_self))
    rw [← same] at known
    obtain ⟨_, _, found, related⟩ := exists_evaluate done known
    rw [same] at found
    cases related with
    | expression _ =>
      obtain ⟨e, failed, cause⟩ := Term.evaluate_arithmetic split connective found
      refine ⟨e, (result_eval t c List.prefix_rfl).trans failed, ?_⟩
      rcases cause with expected | ⟨earlier, member, failed⟩ |
        ⟨isAll, nested, earlier, member, alternatives, found, several⟩
      · exact .inl expected
      · refine .inr (.inl ⟨earlier, member, ?_⟩)
        rw [result_eval_noting c (split ▸ List.mem_append_left _ member)]
        exact failed
      · refine .inr (.inr ⟨isAll, nested, earlier, member, alternatives, ?_, several⟩)
        rw [result_eval_noting c (inside (List.mem_append_left _ member))]
        exact found

/-- A choice between two bounds at once and a third one. An `or` with one alternative stands under
the `and`. -/
def choiceOfBounds : Term :=
  .apply "or" [
    .apply "and" [
      .apply "<=" [.identifier "X_0", .constant (.real 1.0)],
      .apply "or" [.apply "and" [.apply ">=" [.identifier "Y_0", .constant (.real 0.0)]]]],
    .apply ">=" [.identifier "eps", .constant (.real 2.0)]]

/-- A name under an `and` that stands behind a bound. -/
def nameUnderAll : Term :=
  .apply "or" [
    .apply "<=" [.identifier "X_0", .constant (.real 1.0)],
    .apply "and" [.identifier "Y_0"]]

/-- The choice has two alternatives, and the name makes the other term fail. -/
theorem eval_connectives_choiceOfBounds :
    let c : Compiler Float := new {}
    (∀ leaf ∈ choiceOfBounds.leaves, leaf.IsComparison ∧ ∃ c₀ : Compiler Float,
      c₀.config = c.config ∧ (result (eval leaf) c₀).isOk = true) ∧
    (∃ atomOf : Term → Atom Float,
      result (eval choiceOfBounds) c = .ok (choiceOfBounds.flatValue atomOf)) ∧
    choiceOfBounds.alternatives.map List.length = [2, 1] ∧
    (∃ form, result (eval (.identifier "Y_0")) c = .ok (.expression form)) ∧
    ∃ e, result (eval nameUnderAll) c = .error e := by
  intro c
  have comparisons : ∀ leaf ∈ choiceOfBounds.leaves, leaf.IsComparison ∧ ∃ c₀ : Compiler Float,
      c₀.config = c.config ∧ (result (eval leaf) c₀).isOk = true := by
    have leaves : choiceOfBounds.leaves = [
        .apply "<=" [.identifier "X_0", .constant (.real 1.0)],
        .apply ">=" [.identifier "Y_0", .constant (.real 0.0)],
        .apply ">=" [.identifier "eps", .constant (.real 2.0)]] := rfl
    simp only [leaves, List.forall_mem_cons]
    refine ⟨⟨⟨.atMost, _, .inl rfl, rfl⟩, c, rfl, by decide +kernel⟩,
      ⟨⟨.atLeast, _, .inr rfl, rfl⟩, c, rfl, by decide +kernel⟩,
      ⟨⟨.atLeast, _, .inr rfl, rfl⟩, c, rfl, by decide +kernel⟩, List.forall_mem_nil _⟩
  have name : ∃ form, result (eval (.identifier "Y_0")) c = .ok (.expression form) := ⟨_, rfl⟩
  obtain ⟨atomOf, _, evaluated, _⟩ := (eval_connectives c choiceOfBounds).1 comparisons
  have flat : choiceOfBounds.isFlat = true := by decide
  rw [flat] at evaluated
  have split : nameUnderAll.subterms = [.identifier "X_0", .constant (.real 1.0),
      .apply "<=" [.identifier "X_0", .constant (.real 1.0)], .identifier "Y_0"] ++
      .apply Operator.all.name ([] ++ .identifier "Y_0" :: []) :: [nameUnderAll] := rfl
  obtain ⟨e, failed, _⟩ :=
    (eval_connectives c nameUnderAll).2 split (.inl rfl) ⟨c, rfl, name⟩
  exact ⟨comparisons, ⟨atomOf, evaluated⟩, by decide, name, e, failed⟩

end Compiler

end NetSpec
