import NetSpec.Proofs.Compiler.Failure
import NetSpec.Proofs.Order.Sessions

/-!
# A command that fails leaves nothing but names behind

A command that fails, and a term that is evaluated, change nothing of a compiler but its table of
other names, which may list some more of their names. Names get other numbers later on if more
names are in front of them, and the forms of what is asserted are different ones. Still nothing
comes of it: the compiler holds the same terms as before, so whatever is asked afterwards is
answered as if the command had not been there.
-/

namespace NetSpec

variable {α : Type} [Scalar α]

/-- Names are added to the table behind those that it has, if they need a number. -/
theorem Configuration.exists_noteAll_eq (config : Configuration) (others names : List String) :
    ∃ added, config.noteAll others names = others ++ added ∧
      ∀ name ∈ added, name ∈ names ∧ ¬ config.Knows others name := by
  induction names generalizing others with
  | nil => exact ⟨[], (List.append_nil others).symm, List.forall_mem_nil _⟩
  | cons first names ih =>
    obtain ⟨added, noted, new⟩ := ih (config.note others first)
    have later : ∀ name ∈ added, name ∈ first :: names ∧ ¬ config.Knows others name := by
      intro name member
      obtain ⟨met, unknown⟩ := new name member
      exact ⟨List.mem_cons_of_mem first met,
        mt (Or.imp id (config.prefix_note others first).mem) unknown⟩
    rw [noteAll, List.foldl_cons, ← noteAll, noted, note]
    split
    next => exact ⟨added, rfl, later⟩
    next unknown =>
      refine ⟨first :: added, List.append_assoc .., List.forall_mem_cons.mpr ⟨?_, later⟩⟩
      exact ⟨List.mem_cons_self, unknown⟩

namespace Compiler

variable {c c' : Compiler α}

/-- A term is evaluated, with or without success, and nothing but names has been met. -/
theorem left_eval (t : Term) (c : Compiler α) :
    ∃ met, met <+: t.names ∧ left (eval t) c = c.noting met := by
  rw [left]
  obtain ⟨value, done⟩ | ⟨e, met, earlier, failed⟩ := eval_cases t c
  · rw [done]
    exact ⟨t.names, List.prefix_rfl, rfl⟩
  · rw [failed]
    exact ⟨met, earlier, rfl⟩

/-- A command that fails has met names and done nothing else. -/
theorem eq_noting_of_command {k : Command} {e : CompileError α}
    (failed : command k c = .error e c') :
    ∃ met, met <+: k.names ∧ c' = c.noting met := by
  have noted := Notes.command k c
  rw [failed] at noted
  obtain ⟨met, earlier, -, others⟩ := noted
  obtain ⟨c'', done⟩ | ⟨t, e', met', -, stopped⟩ := command_cases k c
  · cases done.symm.trans failed
  · cases stopped.symm.trans failed
    refine ⟨met, earlier, ?_⟩
    rw [noting, noting, ← others]
    rfl

omit [Scalar α] in
theorem exists_added {met names : List String} (earlier : met <+: names) (c : Compiler α) :
    ∃ added, c.noting met = { c with others := c.others ++ added } ∧
      ∀ name ∈ added, name ∈ names ∧ name ∉ c.others := by
  obtain ⟨added, noted, new⟩ := c.config.exists_noteAll_eq c.others met
  refine ⟨added, by rw [noting, noted], fun name member => ?_⟩
  obtain ⟨inside, unknown⟩ := new name member
  exact ⟨earlier.subset inside, fun listed => unknown (.inr listed)⟩

/-- Once more names have been met, all requests are answered alike. -/
theorem answers_noting (config : Configuration) (requests : List Request) (met : List String)
    (later : List Request) :
    let c : Compiler α := session requests (new config)
    List.Forall₂ (Except.Agree CompileError.Alike Answer.Alike) (answers later c)
      (answers later (c.noting met)) ∧
    ∀ properties, result (handlers.script []) (session later c) = .ok properties ↔
      result (handlers.script []) (session later (c.noting met)) = .ok properties := by
  intro c
  obtain ⟨held, -, holds⟩ := exists_holds (α := α) config requests
  have same : Corresponding held c (c.noting met) := ⟨rfl, rfl, rfl, holds, holds.noting met⟩
  obtain ⟨alike, held', -, behind⟩ := same.session later
  refine ⟨alike, fun properties => ?_⟩
  have finished := (Parallel.finish [] [] behind).agree
  generalize result (handlers.script []) (session later c) = first,
    result (handlers.script []) (session later (c.noting met)) = second at finished ⊢
  cases finished with
  | ok related => rw [related]
  | error cause => exact ⟨nofun, nofun⟩

/-- A command that fails leaves the sizes, the configuration and the branches as they were, and
the table of other names with some more of its names at most. So does a term that is evaluated,
with or without success. What is asked afterwards is answered as if the command had not been
there: requests fail for the same cause, and those that go well have the same properties. -/
theorem failed_command_leaves (config : Configuration) (requests : List Request) :
    let c : Compiler α := session requests (new config)
    (∀ k e c', command k c = .error e c' →
      c' = session (requests ++ [.command k]) (new config) ∧
      (∃ added, c' = { c with others := c.others ++ added } ∧
        ∀ name ∈ added, name ∈ k.names ∧ name ∉ c.others) ∧
      ∀ later : List Request,
        List.Forall₂ (Except.Agree CompileError.Alike Answer.Alike) (answers later c)
          (answers later c') ∧
        ∀ properties, result (handlers.script []) (session later c) = .ok properties ↔
          result (handlers.script []) (session later c') = .ok properties) ∧
    ∀ t : Term, ∃ added, left (eval t) c = { c with others := c.others ++ added } ∧
      ∀ name ∈ added, name ∈ t.names ∧ name ∉ c.others := by
  intro c
  constructor
  · intro k e c' failed
    have served : c' = session (requests ++ [.command k]) (new config) := by
      rw [session_append]
      show c' = left (serve (.command k)) c
      rw [left, serve, EStateM.bind_of_error failed]
    obtain ⟨met, earlier, rfl⟩ := eq_noting_of_command failed
    exact ⟨served, exists_added earlier c, answers_noting config requests met⟩
  · intro t
    obtain ⟨met, earlier, behind⟩ := left_eval t c
    rw [behind]
    exact exists_added earlier c

/-- An input with a bound. -/
def boundedInput : List Request := [
  .command (.declareConst "X_0" "Real"),
  .command (.assert (.apply "<=" [.identifier "X_0", .constant (.int 1)]))]

/-- A comparison with a text, behind a new name. -/
def textBound : Command :=
  .assert (.apply "<="
    [.apply "+" [.identifier "X_0", .identifier "slack"], .constant (.string "1")])

/-- The comparison fails and leaves a number to its name, so the next names have other ones. Still
what is asserted with them has the same properties. -/
theorem failed_command_leaves_textBound :
    let c : Compiler Float := session boundedInput (new {})
    let later := slackening.commands.map Request.command
    ∃ e c', command textBound c = .error e c' ∧ c.others = [] ∧ c'.others = ["slack"] ∧
      (c.key "eps").1 ≠ (c'.key "eps").1 ∧
      (result (handlers.script []) (session later c)).isOk = true ∧
      (∃ added, c' = { c with others := c.others ++ added } ∧
        ∀ name ∈ added, name ∈ textBound.names ∧ name ∉ c.others) ∧
      ∀ properties, result (handlers.script []) (session later c) = .ok properties ↔
        result (handlers.script []) (session later c') = .ok properties := by
  intro c later
  obtain ⟨e, failed⟩ : ∃ e, command textBound c = .error e (left (command textBound) c) :=
    exists_error_of_result (by decide +kernel)
  obtain ⟨-, appended, same⟩ := (failed_command_leaves {} boundedInput).1 _ _ _ failed
  exact ⟨e, _, failed, by decide +kernel, by decide +kernel, by decide +kernel, by decide +kernel,
    appended, (same later).2⟩

end Compiler

end NetSpec
