import NetSpec.Proofs.Compiler.Runs

/-!
# Sessions with one compiler

A session asks one compiler for one thing after the other: the value of a term, a visit to a
command or to a whole script, or the properties of what has been asserted so far. A request that
fails leaves a state behind, and the next one starts there.

`Noted` compares a state with an earlier one: some names have been met in between. A run that goes
well meets all its names, and one that fails the first ones of them. Nothing else touches the table
of other names, so the names that a session meets determine it; this is `exists_meets`.
-/

namespace NetSpec

/-- What a compiler may be asked for. -/
inductive Request where
  | eval (t : Term)
  | command (k : Command)
  | script (s : Script)
  | finish

namespace Request

/-- The names that a request is about, in the order in which they are met. -/
def names : Request → List String
  | eval t => t.names
  | command k => k.names
  | script s => s.names
  | finish => []

/-- The terms that a request asserts. -/
def asserted : Request → List Term
  | command k => k.asserted?.toList
  | script s => s.asserted
  | eval _ | finish => []

end Request

/-- What a request is answered if it goes well. -/
inductive Answer (α : Type) where
  | value (value : Value α)
  | done
  | properties (properties : List (Property α))

namespace Compiler

variable {α : Type} [Scalar α]

/-- Serve a request. To finish is to end a script that has no more commands. -/
def serve : Request → M α (Answer α)
  | .eval t => do return .value (← eval t)
  | .command k => do
    let _ ← command k
    return .done
  | .script s => do return .properties (← script s)
  | .finish => do return .properties (← handlers.script [])

/-- The state behind requests, whether they go well or fail. -/
def session (requests : List Request) (c : Compiler α) : Compiler α :=
  requests.foldl (fun c request => left (serve request) c) c

/-- What requests are answered, one after the other. -/
def answers : List Request → Compiler α → List (Except (CompileError α) (Answer α))
  | [], _ => []
  | request :: requests, c =>
    result (serve request) c :: answers requests (left (serve request) c)

theorem session_append (requests more : List Request) (c : Compiler α) :
    session (requests ++ more) c = session more (session requests c) :=
  List.foldl_append

theorem moves_serve (request : Request) : Moves (serve request : M α (Answer α)) := by
  cases request with
  | eval t => exact (moves_eval t).bind fun value => .pure _
  | command k => exact (moves_command k).bind fun _ => .pure _
  | script s => exact (moves_script s).bind fun properties => .pure _
  | finish =>
    have finishes : Moves (handlers.script [] : M α (List (Property α))) :=
      fun c => .of_step (.script [])
    exact finishes.bind fun properties => .pure _

/-- A session goes through steps. -/
theorem reaches_session (requests : List Request) (c : Compiler α) :
    c.Reaches (session requests c) := by
  induction requests generalizing c with
  | nil => exact .refl c
  | cons request requests ih => exact (moves_serve request c).trans (ih _)

/-! ### The names that have been met -/

omit [Scalar α] in
/-- The configuration has stayed, and names have been met since. -/
structure Noted (c : Compiler α) (names : List String) (c' : Compiler α) : Prop where
  config : c'.config = c.config
  others : c'.others = c.config.noteAll c.others names

omit [Scalar α] in
theorem Noted.refl (c : Compiler α) : c.Noted [] c := ⟨rfl, rfl⟩

omit [Scalar α] in
theorem Noted.trans {c c' c'' : Compiler α} {names more : List String} (first : c.Noted names c')
    (second : c'.Noted more c'') : c.Noted (names ++ more) c'' where
  config := second.config.trans first.config
  others := by
    rw [second.others, first.config, first.others, Configuration.noteAll_append]

/-- A term is evaluated, or it fails with the first ones of its names met. Nothing else changes. -/
theorem eval_cases (t : Term) (c : Compiler α) :
    (∃ value, eval t c = .ok value (c.noting t.names)) ∨
      ∃ e met, met <+: t.names ∧ eval t c = .error e (c.noting met) := by
  have evaluated := follows_walk t c List.prefix_rfl rfl
  cases outcome : (t.evaluate (c.config.keyIn (c.config.noteAll c.others t.names)) :
      Except (CompileError α) (Value α)) with
  | ok value =>
    rw [outcome] at evaluated
    exact .inl ⟨value, evaluated⟩
  | error e =>
    rw [outcome] at evaluated
    obtain ⟨met, earlier, failed⟩ := evaluated
    exact .inr ⟨e, met, earlier, failed⟩

/-- A run meets names: all of them if it goes well, and the first ones of them if it fails. -/
def Notes {β : Type} (run : M α β) (names : List String) : Prop :=
  ∀ c : Compiler α, match run c with
    | .ok _ c' => c.Noted names c'
    | .error _ c' => ∃ met, met <+: names ∧ c.Noted met c'

namespace Notes

omit [Scalar α] in
theorem pure {β : Type} (value : β) : Notes (Pure.pure value : M α β) [] := fun c => .refl c

omit [Scalar α] in
/-- Runs in a row meet the names of both. -/
theorem bind {β γ : Type} {run : M α β} {next : β → M α γ} {names more : List String}
    (first : Notes run names) (second : ∀ value, Notes (next value) more) :
    Notes (run >>= next) (names ++ more) := by
  intro c
  have started := first c
  cases outcome : run c with
  | error e c' =>
    rw [outcome] at started
    rw [EStateM.bind_of_error outcome]
    obtain ⟨met, earlier, noted⟩ := started
    exact ⟨met, earlier.trans (List.prefix_append ..), noted⟩
  | ok value c' =>
    rw [outcome] at started
    rw [EStateM.bind_of_ok outcome]
    have rest := second value c'
    cases later : next value c' with
    | ok result c'' =>
      rw [later] at rest
      exact started.trans rest
    | error e c'' =>
      rw [later] at rest
      obtain ⟨met, earlier, noted⟩ := rest
      exact ⟨names ++ met, (List.prefix_append_right_inj names).mpr earlier, started.trans noted⟩

omit [Scalar α] in
/-- What is done with a result need not meet names. -/
theorem bind_nil {β γ : Type} {run : M α β} {next : β → M α γ} {names : List String}
    (first : Notes run names) (second : ∀ value, Notes (next value) []) :
    Notes (run >>= next) names := by
  simpa using first.bind second

theorem eval (t : Term) : Notes (Compiler.eval t : M α (Value α)) t.names := by
  intro c
  obtain ⟨value, done⟩ | ⟨e, met, earlier, failed⟩ := eval_cases t c
  · rw [done]
    exact ⟨rfl, rfl⟩
  · rw [failed]
    exact ⟨met, earlier, rfl, rfl⟩

theorem assert (value : Value α) : Notes (handlers.assert value) [] := by
  intro c
  cases value with
  | expression form => exact ⟨[], List.prefix_rfl, .refl c⟩
  | atom a => exact ⟨rfl, rfl⟩
  | conjunction rows => exact ⟨rfl, rfl⟩
  | disjunction alternatives => exact ⟨rfl, rfl⟩

theorem command (k : Command) : Notes (Compiler.command k : M α (Option Unit)) k.names := by
  cases k with
  | declareConst symbol sort =>
    intro c
    show c.Noted [symbol] (c.declare symbol)
    rw [declare_eq]
    exact ⟨rfl, rfl⟩
  | assert t => exact (eval t).bind_nil assert

theorem walkCommands (commands : List Command) :
    Notes (Script.walkCommands handlers commands : M α (List Unit))
      (commands.flatMap Command.names) := by
  induction commands with
  | nil => exact .pure []
  | cons k commands ih =>
    exact (command k).bind fun result => ih.bind_nil fun results => .pure (result.toList ++ results)

theorem finish (results : List Unit) :
    Notes (handlers.script results : M α (List (Property α))) [] := by
  intro c
  rw [handlers_script]
  cases c.branches.properties c.dimensions with
  | ok properties => exact ⟨rfl, rfl⟩
  | error e => exact ⟨[], List.prefix_rfl, rfl, rfl⟩

theorem script (s : Script) : Notes (Compiler.script s : M α (List (Property α))) s.names :=
  (walkCommands s.commands).bind_nil finish

theorem serve (request : Request) :
    Notes (Compiler.serve request : M α (Answer α)) request.names := by
  cases request with
  | eval t => exact (eval t).bind_nil fun value => .pure _
  | command k => exact (command k).bind_nil fun _ => .pure _
  | script s => exact (script s).bind_nil fun properties => .pure _
  | finish => exact (finish []).bind_nil fun properties => .pure _

end Notes

/-- A session meets names: those of each request that goes well, and the first ones of those of a
request that fails. -/
inductive Meets : List Request → Compiler α → List String → Prop where
  | nil (c : Compiler α) : Meets [] c []
  | ok {request : Request} {requests : List Request} {c c' : Compiler α} {answer : Answer α}
    {met : List String} (served : serve request c = .ok answer c') (later : Meets requests c' met) :
    Meets (request :: requests) c (request.names ++ met)
  | error {request : Request} {requests : List Request} {c c' : Compiler α} {e : CompileError α}
    {first met : List String} (served : serve request c = .error e c')
    (earlier : first <+: request.names) (later : Meets requests c' met) :
    Meets (request :: requests) c (first ++ met)

/-- The table behind a session lists what the names that it meets add to the table in front. -/
theorem exists_meets (requests : List Request) (c : Compiler α) :
    ∃ met, Meets requests c met ∧ c.Noted met (session requests c) := by
  induction requests generalizing c with
  | nil => exact ⟨[], .nil c, .refl c⟩
  | cons request requests ih =>
    obtain ⟨met, meets, noted⟩ := ih (left (serve request) c)
    show ∃ met, _ ∧ c.Noted met (session requests (left (serve request) c))
    have started := Notes.serve (α := α) request c
    simp only [left] at meets noted ⊢
    cases served : serve request c with
    | ok answer c' =>
      rw [served] at started meets noted
      exact ⟨request.names ++ met, .ok served meets, started.trans noted⟩
    | error e c' =>
      rw [served] at started meets noted
      obtain ⟨first, earlier, before⟩ := started
      exact ⟨first ++ met, .error served earlier meets, before.trans noted⟩

end Compiler

end NetSpec
