import NetSpec.Proofs.Compiler.Evaluation

/-!
# Where an evaluation fails

Evaluation goes through the nodes of a term in post order and fails at the first one that can make
no value of the values of its arguments. The nodes in front of that one all have values, and the
failure is that of the whole term.
-/

namespace NetSpec

/-- Of two places in a list one is in front of the other, unless they are the same. -/
theorem append_cons_cases {β : Type} {before before' after after' : List β} {b b' : β}
    (same : before ++ b :: after = before' ++ b' :: after') :
    (before = before' ∧ b = b') ∨ b' ∈ before ∨ b ∈ before' := by
  induction before generalizing before' with
  | nil =>
    cases before' with
    | nil => exact .inl ⟨rfl, (List.cons.inj same).1⟩
    | cons first before' => exact .inr (.inr ((List.cons.inj same).1 ▸ List.mem_cons_self))
  | cons first before ih =>
    cases before' with
    | nil => exact .inr (.inl ((List.cons.inj same).1 ▸ List.mem_cons_self))
    | cons first' before' =>
      obtain ⟨rfl, others⟩ := List.cons.inj same
      obtain ⟨rfl, rfl⟩ | front | front := ih others
      · exact .inl ⟨rfl, rfl⟩
      · exact .inr (.inl (List.mem_cons_of_mem _ front))
      · exact .inr (.inr (List.mem_cons_of_mem _ front))

mutual

/-- The nodes of a term in post order, each one with all that is below it. -/
def Term.subterms : Term → List Term
  | .apply function args => Term.subtermsArgs args ++ [.apply function args]
  | .constant value => [.constant value]
  | .identifier name => [.identifier name]

def Term.subtermsArgs : List Term → List Term
  | [] => []
  | arg :: args => Term.subterms arg ++ Term.subtermsArgs args

end

namespace Term

theorem subtermsArgs_eq (args : List Term) : subtermsArgs args = args.flatMap subterms := by
  induction args with
  | nil => rfl
  | cons arg args ih => rw [subtermsArgs, ih, List.flatMap_cons]

theorem subterms_apply (function : String) (args : List Term) :
    (apply function args).subterms = args.flatMap subterms ++ [apply function args] := by
  rw [subterms, subtermsArgs_eq]

theorem self_mem_subterms (t : Term) : t ∈ t.subterms := by
  cases t with
  | apply function args => simp [subterms]
  | constant value => exact List.mem_singleton_self _
  | identifier name => exact List.mem_singleton_self _

/-- The nodes of an application are those of its arguments, and itself. -/
theorem mem_subterms_apply {function : String} {args : List Term} {node : Term} :
    node ∈ (apply function args).subterms ↔
      (∃ arg ∈ args, node ∈ arg.subterms) ∨ node = apply function args := by
  rw [subterms_apply, List.mem_append, List.mem_flatMap, List.mem_singleton]

/-- An argument is a node, and so are the nodes of an argument. -/
theorem subterms_subset_of_mem {function : String} {args : List Term} {arg : Term}
    (member : arg ∈ args) : arg.subterms ⊆ (apply function args).subterms := by
  intro node inside
  exact mem_subterms_apply.mpr (.inl ⟨arg, member, inside⟩)

/-- A node has no nodes below it but those of the whole term. -/
theorem subterms_subset {t node : Term} (member : node ∈ t.subterms) :
    node.subterms ⊆ t.subterms := by
  induction t with
  | constant value => exact List.mem_singleton.mp member ▸ List.Subset.refl _
  | identifier name => exact List.mem_singleton.mp member ▸ List.Subset.refl _
  | apply function args ih =>
    obtain ⟨arg, inside, member⟩ | rfl := mem_subterms_apply.mp member
    · exact List.Subset.trans (ih arg inside member) (subterms_subset_of_mem inside)
    · exact List.Subset.refl _

/-- A node has no names but those of the whole term. -/
theorem names_subset_of_mem_subterms {t node : Term} (member : node ∈ t.subterms) :
    node.names ⊆ t.names := by
  induction t with
  | constant value => exact List.mem_singleton.mp member ▸ List.Subset.refl _
  | identifier name => exact List.mem_singleton.mp member ▸ List.Subset.refl _
  | apply function args ih =>
    obtain ⟨arg, inside, member⟩ | rfl := mem_subterms_apply.mp member
    · intro name named
      rw [names, namesArgs_eq]
      exact List.mem_flatMap.mpr ⟨arg, inside, ih arg inside member named⟩
    · exact List.Subset.refl _

variable {α : Type} [Scalar α] {keyOf : String → Key}

theorem evaluate_apply (function : String) (args : List Term) :
    ((apply function args).evaluate keyOf : Except (CompileError α) (Value α)) =
      args.mapM (evaluate keyOf) >>= Value.apply function := by
  rw [evaluate, evaluateArgs_eq]

/-- All nodes of a term that has a value have values. -/
theorem exists_value_of_mem_subterms {t node : Term} (member : node ∈ t.subterms)
    {value : Value α} (done : t.evaluate keyOf = .ok value) :
    ∃ value : Value α, node.evaluate keyOf = .ok value := by
  induction t generalizing value with
  | constant k => exact ⟨value, List.mem_singleton.mp member ▸ done⟩
  | identifier name => exact ⟨value, List.mem_singleton.mp member ▸ done⟩
  | apply function args ih =>
    obtain ⟨arg, inside, member⟩ | rfl := mem_subterms_apply.mp member
    · rw [evaluate_apply] at done
      obtain ⟨values, evaluated, _⟩ := Except.bind_eq_ok_iff.mp done
      obtain ⟨result, _, found⟩ :=
        exists_mem_of_forall₂ (Except.mapM_eq_ok_iff.mp evaluated) inside
      exact ih arg inside member found
    · exact ⟨value, done⟩

/-- A node makes no value of the values of its arguments. -/
inductive Breaks (keyOf : String → Key) (e : CompileError α) : Term → Prop where
  | constant {value : Constant} (failed : Value.ofConstant (α := α) value = .error e) :
    Breaks keyOf e (.constant value)
  | apply {function : String} {args : List Term} {values : List (Value α)}
    (evaluated : args.mapM (evaluate keyOf) = .ok values)
    (failed : Value.apply function values = .error e) : Breaks keyOf e (.apply function args)

theorem evaluate_of_breaks {node : Term} {e : CompileError α} (breaks : node.Breaks keyOf e) :
    node.evaluate keyOf = .error e := by
  cases breaks with
  | constant failed => exact failed
  | apply evaluated failed =>
    rw [evaluate_apply, evaluated]
    exact failed

/-- A term without a value fails at the first of its nodes that breaks. -/
theorem exists_breaks {t : Term} {e : CompileError α} (failed : t.evaluate keyOf = .error e) :
    ∃ before node after, t.subterms = before ++ node :: after ∧
      (∀ earlier ∈ before, ∃ value : Value α, earlier.evaluate keyOf = .ok value) ∧
      node.Breaks keyOf e := by
  induction t with
  | constant value => exact ⟨[], _, [], rfl, List.forall_mem_nil _, .constant failed⟩
  | identifier name => cases failed
  | apply function args ih =>
    rw [evaluate_apply] at failed
    cases evaluated : (args.mapM (evaluate keyOf) : Except (CompileError α) (List (Value α))) with
    | ok values =>
      rw [evaluated] at failed
      refine ⟨args.flatMap subterms, _, [], subterms_apply function args, ?_,
        .apply evaluated failed⟩
      intro earlier member
      obtain ⟨arg, inside, member⟩ := List.mem_flatMap.mp member
      obtain ⟨value, _, done⟩ :=
        exists_mem_of_forall₂ (Except.mapM_eq_ok_iff.mp evaluated) inside
      exact exists_value_of_mem_subterms member done
    | error e' =>
      rw [evaluated] at failed
      obtain rfl : e' = e := Except.error.inj failed
      obtain ⟨front, arg, back, rfl, fine, stopped⟩ := Except.mapM_eq_error_iff.mp evaluated
      obtain ⟨before, node, after, split, values, breaks⟩ := ih arg (by simp) stopped
      refine ⟨front.flatMap subterms ++ before, node,
        after ++ back.flatMap subterms ++ [apply function (front ++ arg :: back)], ?_, ?_, breaks⟩
      · simp [subterms_apply, split]
      · intro earlier member
        rcases List.mem_append.mp member with member | member
        · obtain ⟨first, inside, member⟩ := List.mem_flatMap.mp member
          obtain ⟨value, done⟩ := fine first inside
          exact exists_value_of_mem_subterms member done
        · exact values earlier member

end Term

end NetSpec
