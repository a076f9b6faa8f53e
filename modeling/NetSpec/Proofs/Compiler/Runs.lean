import NetSpec.Proofs.Compiler.Reachable

/-!
# Runs through the commands of a script

Commands leave no results behind, so a run through them either gets to their end or fails at an
assertion in between. It gets from command to command through the states of the runs through the
commands before. An assertion that fails has met names and done nothing else.
-/

namespace NetSpec

variable {α : Type} [Scalar α]

namespace Compiler

variable {c c' : Compiler α}

/-- A term is evaluated with the keys that its names have from then on. -/
theorem eval_ok {t : Term} {value : Value α} (done : eval t c = .ok value c') :
    t.evaluate (c.config.keyIn c'.others) = .ok value ∧ c' = c.noting t.names := by
  have evaluated := follows_walk t c List.prefix_rfl rfl
  cases outcome : (t.evaluate (c.config.keyIn (c.config.noteAll c.others t.names)) :
      Except (CompileError α) (Value α)) with
  | error e =>
    rw [outcome] at evaluated
    obtain ⟨met, -, failed⟩ := evaluated
    cases failed.symm.trans done
  | ok result =>
    rw [outcome] at evaluated
    have finished : eval t c = .ok result (c.noting t.names) := evaluated
    cases finished.symm.trans done
    exact ⟨outcome, rfl⟩

/-- A command goes well, or it is an assertion that fails with some of its names met. -/
theorem command_cases (command : Command) (c : Compiler α) :
    (∃ c', command.walk handlers c = .ok none c') ∨
      ∃ t e met, command = .assert t ∧ command.walk handlers c = .error e (c.noting met) := by
  cases command with
  | declareConst symbol sort => exact .inl ⟨c.declare symbol, rfl⟩
  | assert t =>
    have walked := walk_assert t c List.prefix_rfl rfl
    split at walked
    next => exact .inl ⟨_, walked⟩
    next e _ =>
      obtain ⟨met, failed⟩ := walked
      exact .inr ⟨t, e, met, rfl, failed⟩

/-- A run gets to the end of the commands, or up to the first assertion that fails. -/
theorem walkCommands_cases (commands : List Command) (c : Compiler α) :
    (∃ c', Script.walkCommands handlers commands c = .ok [] c') ∨
      ∃ visited t rest c' e met, commands = visited ++ .assert t :: rest ∧
        Script.walkCommands handlers visited c = .ok [] c' ∧
        (Command.assert t).walk handlers c' = .error e (c'.noting met) ∧
        Script.walkCommands handlers commands c = .error e (c'.noting met) := by
  induction commands generalizing c with
  | nil => exact .inl ⟨c, rfl⟩
  | cons command commands ih =>
    obtain ⟨c', walked⟩ | ⟨t, e, met, rfl, failed⟩ := command_cases command c
    · have onward (commands : List Command) :
          Script.walkCommands handlers (command :: commands) c =
            Script.walkCommands handlers commands c' := Script.walkCommands_of_none walked
      rw [onward]
      obtain finished | ⟨visited, t, rest, c'', e, met, rfl, reached, failed, ended⟩ := ih c'
      · exact .inl finished
      · refine .inr ⟨command :: visited, t, rest, c'', e, met, rfl, ?_, failed, ended⟩
        rw [onward, reached]
    · exact .inr ⟨[], t, commands, c, e, met, rfl, rfl, failed, EStateM.bind_of_error failed⟩

/-- A run goes on from where the run through the first commands ends. -/
theorem walkCommands_append {before : List Command} (after : List Command)
    (reached : Script.walkCommands handlers before c = .ok [] c') :
    Script.walkCommands handlers (before ++ after) c = Script.walkCommands handlers after c' := by
  induction before generalizing c with
  | nil =>
    cases reached
    rfl
  | cons command before ih =>
    obtain ⟨next, walked⟩ | ⟨t, e, met, rfl, failed⟩ := command_cases command c
    · rw [Script.walkCommands_of_none walked] at reached
      rw [List.cons_append, Script.walkCommands_of_none walked]
      exact ih reached
    · have stopped : Script.walkCommands handlers (.assert t :: before) c =
          .error e (c.noting met) := EStateM.bind_of_error failed
      cases stopped.symm.trans reached

/-- The state behind commands that go well is that of evaluation. -/
theorem walkCommands_ok {commands : List Command}
    (reached : Script.walkCommands handlers commands c = .ok [] c') :
    ∃ assertions, (commands.filterMap Command.asserted?).mapM
        (Term.assertion (c.config.keyIn c'.others)) = .ok assertions ∧
      c' = c.after commands assertions := by
  have run := walkCommands_eq commands (c.config.noteAll c.others (commands.flatMap Command.names))
    c List.prefix_rfl rfl
  split at run
  next assertions evaluated =>
    cases run.symm.trans reached
    exact ⟨assertions, evaluated, rfl⟩
  next =>
    obtain ⟨_, failed⟩ := run
    cases failed.symm.trans reached

end Compiler

namespace Script

/-- The state that a compiler is in when it is done with a script, however that went. -/
def final (s : Script) (config : Configuration) : Compiler α :=
  Compiler.left (Compiler.script s) (.new config)

variable {s : Script} {config : Configuration} {c : Compiler α}

/-- A script whose commands go well is assembled, and nothing else is left to do. -/
theorem final_of_ok (reached : walkCommands Compiler.handlers s.commands (.new config) = .ok [] c) :
    s.final config = c.reset := by
  have run : Compiler.script s (.new config) = Compiler.handlers.script [] c :=
    EStateM.bind_of_ok reached
  rw [final, Compiler.left, run]
  exact Compiler.left_script [] c

/-- A failure is the end. -/
theorem final_of_error {e : CompileError α}
    (failed : walkCommands Compiler.handlers s.commands (.new config) = .error e c) :
    s.final config = c := by
  have run : Compiler.script s (.new config) = .error e c := EStateM.bind_of_error failed
  rw [final, Compiler.left, run]

/-- The states between the commands are on the way. -/
theorem reaches_final {before after : List Command} (split : s.commands = before ++ after)
    (reached : walkCommands Compiler.handlers before (.new config) = .ok [] c) :
    c.Reaches (s.final config) := by
  have onward : Compiler.script s (.new config) = Compiler.script ⟨after⟩ c := by
    have same := Compiler.walkCommands_append after reached
    simp only [Compiler.script, Script.walk, split, bind, EStateM.bind, same]
  have same : s.final config = Compiler.left (Compiler.script ⟨after⟩) c := by
    rw [final, Compiler.left, onward, Compiler.left]
  rw [same]
  exact Compiler.moves_script ⟨after⟩ c

end Script

end NetSpec
