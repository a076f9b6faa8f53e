import NetSpec.Proofs.Compiler.Runs
import NetSpec.Proofs.Constraint.NormalForm

/-!
# What a failed script leaves behind

A script fails where its branches cannot be assembled, or at a command before that. The branches
are taken by the end of a script alone. So a failure in the assembly leaves nothing asserted, and
a command that fails leaves everything asserted that the commands in front of it have asserted.
The next script on the same compiler is assembled with what is left, as
`Compiler.script_error_leaves` says.
-/

namespace NetSpec

namespace Assertion

variable {α : Type}

/-- No constraint is asserted, and no choice is left. -/
def IsVacuous (assertion : Assertion α) : Prop := assertion.common = [] ∧ assertion.choice? = none

/-- One alternative is no choice. -/
theorem length_ne_one_of_choice {assertion : Assertion α} {choice : Disjunction α}
    (chosen : assertion.choice? = some choice) : choice.length ≠ 1 := by
  match assertion with
  | any [] =>
    obtain rfl := Option.some.inj chosen
    exact Nat.zero_ne_one
  | any (first :: second :: others) =>
    obtain rfl := Option.some.inj chosen
    simp

end Assertion

/-- Assertions leave no trace if and only if they are vacuous. -/
theorem Branches.ofAssertions_eq_initial_iff {α : Type} (assertions : List (Assertion α)) :
    ofAssertions assertions = initial ↔ ∀ assertion ∈ assertions, assertion.IsVacuous := by
  constructor
  · intro same assertion asserted
    have common : commonOf assertions = [] := by
      rw [← common_ofAssertions, same]
      rfl
    have one : ((choicesOf assertions).map List.length).prod = 1 := by
      rw [← length_alternatives_ofAssertions, same]
      rfl
    refine ⟨List.flatMap_eq_nil_iff.mp common assertion asserted, ?_⟩
    rw [Option.eq_none_iff_forall_not_mem]
    intro choice chosen
    -- A product is one only if all its factors are.
    have listed : choice ∈ choicesOf assertions :=
      List.mem_filterMap.mpr ⟨assertion, asserted, chosen⟩
    have length : choice.length ∣ 1 := one ▸ List.dvd_prod (List.mem_map_of_mem listed)
    exact Assertion.length_ne_one_of_choice chosen (Nat.dvd_one.mp length)
  · intro vacuous
    have common : commonOf assertions = [] :=
      List.flatMap_eq_nil_iff.mpr fun assertion asserted => (vacuous assertion asserted).1
    have choices : choicesOf assertions = [] :=
      List.filterMap_eq_nil_iff.mpr fun assertion asserted => (vacuous assertion asserted).2
    have same := alternatives_ofAssertions assertions
    rw [choices] at same
    cases made : ofAssertions assertions with
    | mk common' alternatives =>
      rw [made] at same
      have commonMade := common_ofAssertions assertions
      rw [made, common] at commonMade
      exact congrArg₂ Branches.mk commonMade same

namespace Compiler

variable {α : Type} [Scalar α]

/-- A script fails for a cause, in a state that is left, with the assertions that stay: none where
the branches have been taken to be assembled, and those of the commands in front where a command
fails. -/
inductive Fails (s : Script) (c c' : Compiler α) (e : CompileError α) :
    List (Assertion α) → Prop where
  | assembly {c₁ : Compiler α} (visited : Script.walkCommands handlers s.commands c = .ok [] c₁)
      (refused : c₁.branches.properties c₁.dimensions = .error e) (left : c' = c₁.reset) :
      Fails s c c' e []
  | command {before after : List Command} {t : Term} {c₁ : Compiler α}
      {kept : List (Assertion α)} (split : s.commands = before ++ .assert t :: after)
      (visited : Script.walkCommands handlers before c = .ok [] c₁)
      (asserted : (before.filterMap Command.asserted?).mapM
        (Term.assertion (c.config.keyIn c₁.others)) = .ok kept)
      (stopped : (Command.assert t).walk handlers c₁ = .error e c') : Fails s c c' e kept

/-- A script that fails does so in its assembly, or at a command with those in front gone well. -/
theorem exists_fails {s : Script} {c c' : Compiler α} {e : CompileError α}
    (clean : c.branches = .initial) (failed : script s c = .error e c') :
    ∃ kept, Fails s c c' e kept ∧ c'.branches = .ofAssertions kept := by
  have run : script s c = (Script.walkCommands handlers s.commands >>= handlers.script) c := rfl
  obtain ⟨c₁, visited⟩ | ⟨before, t, after, c₁, e', met, split, visited, stopped, ended⟩ :=
    walkCommands_cases s.commands c
  · rw [run, EStateM.bind_of_ok visited, handlers_script] at failed
    cases assembled : c₁.branches.properties c₁.dimensions with
    | ok properties =>
      rw [assembled] at failed
      cases failed
    | error e' =>
      rw [assembled] at failed
      cases failed
      exact ⟨[], .assembly visited assembled rfl, rfl⟩
  · rw [run, EStateM.bind_of_error ended] at failed
    cases failed
    obtain ⟨kept, asserted, rfl⟩ := walkCommands_ok visited
    refine ⟨kept, .command split visited asserted stopped, ?_⟩
    show kept.foldl Branches.assert c.branches = _
    rw [clean]
    rfl

/-- A script that fails leaves those assertions behind that are in front of the failure, and none
if it has been assembled. So it leaves a compiler clean exactly if these are vacuous, and the next
script on the compiler is assembled with them in front of its own assertions. -/
theorem script_error_leaves {s : Script} {c c' : Compiler α} {e : CompileError α}
    (clean : c.branches = .initial) (failed : script s c = .error e c') :
    ∃ kept, Fails s c c' e kept ∧ c'.branches = .ofAssertions kept ∧
      (c'.branches = .initial ↔ ∀ assertion ∈ kept, assertion.IsVacuous) ∧
      ∀ next : Script, result (script next) c' = (do
        let assertions ← next.asserted.mapM
          (Term.assertion (c'.config.keyIn (c'.config.noteAll c'.others next.names)))
        (Branches.ofAssertions (kept ++ assertions)).properties
          (c'.after next.commands assertions).dimensions) := by
  obtain ⟨kept, fails, left⟩ := exists_fails clean failed
  refine ⟨kept, fails, left, ?_, fun next => ?_⟩
  · rw [left]
    exact Branches.ofAssertions_eq_initial_iff kept
  · rw [result_script next c' List.prefix_rfl rfl]
    refine congrArg _ (funext fun assertions => ?_)
    have branches : (c'.after next.commands assertions).branches =
        Branches.ofAssertions (kept ++ assertions) := by
      rw [Branches.ofAssertions, List.foldl_append, after, left]
      rfl
    rw [branches]

omit [Scalar α] in
/-- A run without a result fails, in the state that it leaves. -/
theorem exists_error_of_result {β : Type} {run : M α β} {c : Compiler α}
    (failed : (result run c).isOk = false) : ∃ e, run c = .error e (left run c) := by
  simp only [result, left] at failed ⊢
  cases outcome : run c with
  | ok value c' =>
    rw [outcome] at failed
    cases failed
  | error e c' => exact ⟨e, rfl⟩

/-- A bound on an input, and then a name that is no constraint. -/
def bareName : Script where
  commands := [
    .declareConst "X_0" "Real",
    .assert (.apply "<=" [.identifier "X_0", .constant (.real 1.0)]),
    .assert (.identifier "X_0")]

/-- Nothing but an output. -/
def loneOutput : Script where
  commands := [.declareConst "Y_0" "Real"]

/-- The name fails behind the bound, and the lone output is compiled with what is left. -/
theorem script_error_leaves_bareName :
    let c : Compiler Float := new {}
    let c' := left (script bareName) c
    c.branches = .initial ∧ ∃ e, script bareName c = .error e c' ∧
      ∃ kept, Fails bareName c c' e kept ∧ c'.branches = .ofAssertions kept ∧
        (c'.branches = .initial ↔ ∀ assertion ∈ kept, assertion.IsVacuous) ∧
        result (script loneOutput) c' = (do
          let assertions ← loneOutput.asserted.mapM
            (Term.assertion (c'.config.keyIn (c'.config.noteAll c'.others loneOutput.names)))
          (Branches.ofAssertions (kept ++ assertions)).properties
            (c'.after loneOutput.commands assertions).dimensions) := by
  intro c c'
  obtain ⟨e, failed⟩ : ∃ e, script bareName c = .error e c' :=
    exists_error_of_result (by decide +kernel)
  obtain ⟨kept, fails, left, clean, next⟩ := script_error_leaves (c := c) rfl failed
  exact ⟨rfl, e, failed, kept, fails, left, clean, next loneOutput⟩

/-- A compiler that a script has failed on still has the bound in front of the failure. It bounds
the input in the next script, which does not mention it; on a clean compiler it does not. -/
theorem script_error_keeps_bound :
    let c : Compiler Float := new {}
    let c' := left (script bareName) c
    (new {}).Reaches c ∧ c.branches = .initial ∧ (result (script bareName) c).isOk = false ∧
      c'.branches ≠ .initial ∧
      (result (script loneOutput) c').toOption.map (·.map (·.box == .unbounded 1)) =
        some [false] ∧
      (result (script loneOutput) c'.reset).toOption.map (·.map (·.box == .unbounded 1)) =
        some [true] := by
  intro c c'
  have kept : c'.branches.common.length = 1 := by decide +kernel
  refine ⟨.refl _, rfl, by decide +kernel, fun clean => ?_, by decide +kernel, by decide +kernel⟩
  rw [clean] at kept
  exact Nat.zero_ne_one kept

end Compiler

end NetSpec
