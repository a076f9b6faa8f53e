import NetSpec.Proofs.Compiler.Reachable
import NetSpec.Proofs.Order.Numbering
import NetSpec.Proofs.Order.Regions

/-!
# What a compiler has met before does not matter

A compiler keeps the numbers of other names from script to script, so a script compiled by two
compilers with different histories has forms whose terms stand in different orders. Nothing that
is computed shows it: two compilers of one configuration with the same sizes and nothing asserted
compile a script to the same properties, or fail for the same cause, which may be about different
variables only if a variable was not expected. So says `Compiler.script_agree`, for any scalars.

The tables of two histories need not list the same names. Each is extended by what the other one
has more, and the names of a script have the same keys in a table that extends the one that the
script ends with. The extended tables list the same names, so their numbers differ by a
permutation, and what is evaluated under the two numberings is renumbered.
-/

namespace NetSpec

/-- Two tables can be extended until they list the same names. -/
theorem exists_extended_perm {names names' : List String} (nodup : names.Nodup)
    (nodup' : names'.Nodup) : ∃ table table', names <+: table ∧ names' <+: table' ∧
      table.Nodup ∧ table.Perm table' := by
  have extended {names names' : List String} (nodup : names.Nodup) (nodup' : names'.Nodup) :
      (names ++ names'.filter (· ∉ names)).Nodup := by
    rw [List.nodup_append]
    refine ⟨nodup, nodup'.filter _, ?_⟩
    rintro name listed _ added rfl
    simp [listed] at added
  refine ⟨_, _, List.prefix_append names (names'.filter (· ∉ names)),
    List.prefix_append names' (names.filter (· ∉ names')), extended nodup nodup', ?_⟩
  rw [List.perm_ext_iff_of_nodup (extended nodup nodup') (extended nodup' nodup)]
  intro name
  by_cases listed : name ∈ names <;> by_cases listed' : name ∈ names' <;> simp [listed, listed']

section Branches

variable {α : Type} {σ : Equiv.Perm Nat}

/-- Branches that differ by the numbers of keys only. -/
structure Branches.Renumbered (σ : Equiv.Perm Nat) (a b : Branches α) : Prop where
  common : a.common.Renumbered σ b.common
  alternatives : a.alternatives.Renumbered σ b.alternatives

namespace Branches.Renumbered

variable {a b : Branches α}

theorem initial : (Branches.initial : Branches α).Renumbered σ .initial :=
  ⟨.nil, .cons .nil .nil⟩

theorem assertAll (h : a.Renumbered σ b) {rows rows' : Conjunction α}
    (each : rows.Renumbered σ rows') : (a.assertAll rows).Renumbered σ (b.assertAll rows') :=
  ⟨List.rel_append h.common each, h.alternatives⟩

theorem assertAny (h : a.Renumbered σ b) {choice choice' : Disjunction α}
    (each : choice.Renumbered σ choice') :
    (a.assertAny choice).Renumbered σ (b.assertAny choice') := by
  have several : Disjunction.Renumbered σ
      (choice.flatMap fun rows => a.alternatives.map (rows ++ ·))
      (choice'.flatMap fun rows => b.alternatives.map (rows ++ ·)) :=
    List.rel_flatMap each fun rows rows' same =>
      List.rel_map (fun _ _ added => List.rel_append same added) h.alternatives
  cases each with
  | nil => exact ⟨h.common, several⟩
  | cons first others =>
    cases others with
    | nil => exact h.assertAll first
    | cons => exact ⟨h.common, several⟩

theorem assert (h : a.Renumbered σ b) {assertion assertion' : Assertion α}
    (same : assertion.Renumbered σ assertion') :
    (a.assert assertion).Renumbered σ (b.assert assertion') := by
  cases same with
  | all each => exact h.assertAll each
  | any each => exact h.assertAny each

theorem foldl (h : a.Renumbered σ b) {assertions assertions' : List (Assertion α)}
    (each : List.Forall₂ (Assertion.Renumbered σ) assertions assertions') :
    (assertions.foldl Branches.assert a).Renumbered σ (assertions'.foldl Branches.assert b) := by
  induction each generalizing a b with
  | nil => exact h
  | cons first _ ih => exact ih (h.assert first)

theorem rows (h : a.Renumbered σ b) : a.rows.Renumbered σ b.rows :=
  List.rel_map (fun _ _ added => List.rel_append h.common added) h.alternatives

end Branches.Renumbered

variable [Scalar α] {dims dims' : Dimensions} (inputs : dims.inputSize = dims'.inputSize)
  (outputs : dims.outputSize = dims'.outputSize)

include inputs outputs

/-- Constraints that differ by numbers only have the same region. -/
theorem Region.ofRows?_agree {rows rows' : Conjunction α} (each : rows.Renumbered σ rows') :
    Except.Agree CompileError.Alike Eq (Region.ofRows? rows dims) (Region.ofRows? rows' dims') := by
  have roles : Except.Agree CompileError.Alike (List.Forall₂ Eq)
      (rows.mapM (·.role dims)) (rows'.mapM (·.role dims')) :=
    Except.Agree.mapM (fun _ _ same => Atom.Renumbered.role_agree same inputs outputs) each
  refine roles.bind fun roles roles' same => ?_
  rw [List.forall₂_eq_eq_eq] at same
  rw [same, inputs]
  exact .of_eq CompileError.Alike.refl (fun _ => rfl) rfl

/-- Branches that differ by numbers only have the same properties. -/
theorem Branches.Renumbered.properties_agree {a b : Branches α} (h : a.Renumbered σ b) :
    Except.Agree CompileError.Alike Eq (a.properties dims) (b.properties dims') := by
  have regions : Except.Agree CompileError.Alike (List.Forall₂ Eq)
      (a.rows.mapM (Region.ofRows? · dims)) (b.rows.mapM (Region.ofRows? · dims')) :=
    Except.Agree.mapM (fun _ _ each => Region.ofRows?_agree inputs outputs each) h.rows
  refine regions.bind fun regions regions' same => ?_
  rw [List.forall₂_eq_eq_eq] at same
  exact .ok (congrArg _ (congrArg _ same))

end Branches

namespace Compiler

variable {α : Type} [Scalar α]

/-- A compiler lists no name twice. -/
theorem Reaches.nodup_others {c c' : Compiler α} (reaches : c.Reaches c')
    (nodup : c.others.Nodup) : c'.others.Nodup := by
  induction reaches with
  | refl => exact nodup
  | @tail c₁ c₂ _ step ih =>
    have noted (name : String) : (c₁.noting [name]).others.Nodup :=
      c₁.config.nodup_noteAll ih [name]
    obtain rfl | ⟨name, rfl⟩ | ⟨name, rfl⟩ | ⟨value, asserted⟩ | rfl := step.cases
    · exact ih
    · exact noted name
    · rw [declare_eq]
      exact noted name
    · rw [eq_of_assert asserted]
      exact ih
    · exact ih

/-- What other names a compiler has met before does not matter to what it makes of a script. Two
compilers of one configuration that have the same sizes, and nothing asserted, compile every
script to the same properties, or fail for the same cause. Only the variable of the message that
one is not expected may be another one. -/
theorem script_agree {config : Configuration} {c c' : Compiler α}
    (reaches : (new config).Reaches c) (reaches' : (new config).Reaches c')
    (inputs : c.inputSize = c'.inputSize) (outputs : c.outputSize = c'.outputSize)
    (clean : c.branches = .initial) (clean' : c'.branches = .initial) (s : Script) :
    Except.Agree CompileError.Alike Eq (result (script s) c) (result (script s) c') := by
  have same : c.config = config := reaches.grows.1
  have same' : c'.config = config := reaches'.grows.1
  -- The script is followed with tables behind its end, as its own tables may list different names.
  obtain ⟨table, table', extended, extended', nodup, perm⟩ := exists_extended_perm
    (c.config.nodup_noteAll (reaches.nodup_others .nil) s.names)
    (c'.config.nodup_noteAll (reaches'.nodup_others .nil) s.names)
  obtain ⟨σ, moves⟩ := exists_renumbering nodup perm
  have renumbers {t : Term} (asserted : t ∈ s.asserted) : ∀ name ∈ t.names,
      c'.config.keyIn table' name = (c.config.keyIn table name).renumber σ := by
    intro name member
    have known := s.knows_of_mem_asserted c.config asserted member c.others
    rw [same', ← same]
    exact c.config.keyIn_renumber moves (known.imp id extended.mem)
  have assertions : Except.Agree CompileError.Alike (List.Forall₂ (Assertion.Renumbered σ))
      (s.asserted.mapM (Term.assertion (c.config.keyIn table)))
      (s.asserted.mapM (Term.assertion (c'.config.keyIn table')) :
        Except (CompileError α) (List (Assertion α))) := by
    refine (Except.Agree.mapM (R := fun t t' => t ∈ s.asserted ∧ t = t') ?_ ?_)
    · rintro t _ ⟨asserted, rfl⟩
      exact (t.assertion_renumbered (renumbers asserted)).imp
        (fun e e' cause => cause ▸ .refl e) fun _ _ h => h
    · exact List.forall₂_same.mpr fun t asserted => ⟨asserted, rfl⟩
  rw [result_script s c extended rfl, result_script s c' extended' rfl]
  refine assertions.bind fun assertions assertions' each => ?_
  have branches : (c.after s.commands assertions).branches.Renumbered σ
      (c'.after s.commands assertions').branches := by
    simp only [after, clean, clean']
    exact Branches.Renumbered.initial.foldl each
  refine branches.properties_agree ?_ ?_
  · simp only [dimensions, after, same, same', inputs]
  · simp only [dimensions, after, same, same', outputs]

/-- A bound on an input between two names that cancel out. -/
def slackening : Script where
  commands := [
    .declareConst "X_0" "Real",
    .assert (.apply "<=" [
      .apply "+" [.identifier "delta", .identifier "X_0", .identifier "eps"],
      .apply "+" [.identifier "eps", .constant (.int 3), .identifier "delta"]])]

/-- Two compilers that have the two names in different orders compile the bound to the same
properties. -/
theorem script_agree_slackening :
    let c : Compiler Float := left (handlers.identifier "eps") (new {})
    let c' : Compiler Float :=
      left (handlers.identifier "eps") (left (handlers.identifier "delta") (new {}))
    (c.key "eps").1 ≠ (c'.key "eps").1 ∧ (result (script slackening) c).isOk = true ∧
      (new {}).Reaches c ∧ (new {}).Reaches c' ∧ c.inputSize = c'.inputSize ∧
      c.outputSize = c'.outputSize ∧ c.branches = .initial ∧ c'.branches = .initial ∧
      Except.Agree CompileError.Alike Eq (result (script slackening) c)
        (result (script slackening) c') := by
  intro c c'
  have reaches : (new {}).Reaches c := .of_step (.identifier "eps")
  have reaches' : (new {}).Reaches c' :=
    .trans (.of_step (.identifier "delta")) (.of_step (.identifier "eps"))
  exact ⟨by decide, by decide +kernel, reaches, reaches', rfl, rfl, rfl, rfl,
    script_agree reaches reaches' rfl rfl rfl rfl slackening⟩

end Compiler

end NetSpec
