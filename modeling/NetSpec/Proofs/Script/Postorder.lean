import Mathlib
import NetSpec.Proofs.Result
import NetSpec.Proofs.Script.Term
import NetSpec.Script.Walk

/-!
# Walks as linear programs

The nodes of a term in post order, arguments from left to right, are a program for a machine with
a stack of results. An application takes as many results off the stack as it has arguments, and
an assertion takes one. The programs of all commands in a row are the program of a script. Each
instruction calls one handler, so a run has a list of calls, and a handler that fails is the last
one to be called.

A walk does what the program of its script does, whatever the handlers are. The recursion of the
walk keeps no stack, so the induction is on terms, with any stack below the results of the term
and any program behind it.
-/

namespace NetSpec

/-- An instruction calls the handler of one node. An application is known by the number of its
arguments, and an assertion has its term on the stack. -/
inductive Instruction where
  | constant (value : Constant)
  | identifier (name : String)
  | apply (function : String) (arity : Nat)
  | declareConst (symbol sort : String)
  | assert

mutual

/-- The nodes of a term, each one behind its arguments. -/
def Term.postorder : Term → List Instruction
  | .apply function args => Term.postorderArgs args ++ [.apply function args.length]
  | .constant value => [.constant value]
  | .identifier name => [.identifier name]

def Term.postorderArgs : List Term → List Instruction
  | [] => []
  | arg :: args => Term.postorder arg ++ Term.postorderArgs args

end

/-- The program of a command: the nodes of its term, and then its own handler. -/
def Command.program : Command → List Instruction
  | .declareConst symbol sort => [.declareConst symbol sort]
  | .assert term => term.postorder ++ [.assert]

/-- The program of a script, command by command. -/
def Script.program (s : Script) : List Instruction := s.commands.flatMap Command.program

example :
    Script.program ⟨[.declareConst "X_0" "Real",
      .assert (.apply "<=" [.apply "-" [.identifier "X_0"], .identifier "Y_0"])]⟩ =
      [.declareConst "X_0" "Real", .identifier "X_0", .apply "-" 1, .identifier "Y_0",
        .apply "<=" 2, .assert] := rfl

/-- What goes from one handler to the next ones: the results of terms that wait on the stack, the
latest one first, and the results that commands have had kept, in order. -/
structure Machine (τ κ : Type) where
  stack : List τ := []
  kept : List κ := []

/-- A call of a handler, with what it is given. -/
inductive Call (τ κ : Type) where
  | constant (value : Constant)
  | identifier (name : String)
  | apply (function : String) (args : List τ)
  | declareConst (symbol sort : String)
  | assert (term : τ)
  | script (kept : List κ)

variable {σ ε τ κ ω : Type}

namespace Machine

/-- The result of a term goes on the stack. -/
def push (m : Machine τ κ) (result : τ) : Machine τ κ := { m with stack := result :: m.stack }

/-- The results of arguments go on the stack in order, so the last one is on top. -/
def pushAll (m : Machine τ κ) (results : List τ) : Machine τ κ :=
  { m with stack := results.reverse ++ m.stack }

/-- The result of a command is kept, if there is one. -/
def keep (m : Machine τ κ) (result : Option κ) : Machine τ κ :=
  { m with kept := m.kept ++ result.toList }

theorem pushAll_cons (m : Machine τ κ) (result : τ) (results : List τ) :
    m.pushAll (result :: results) = (m.push result).pushAll results := by
  simp [pushAll, push]

end Machine

/-- The call that an instruction makes, and what becomes of the machine in it. The results for an
application leave the stack, and so does the term of an assertion. There is no call if the stack
has too few results. -/
def Instruction.call (h : Handlers σ ε τ κ ω) (m : Machine τ κ) :
    Instruction → Option (Call τ κ × EStateM ε σ (Machine τ κ))
  | constant value => some (.constant value, m.push <$> h.constant value)
  | identifier name => some (.identifier name, m.push <$> h.identifier name)
  | apply function arity =>
    if arity ≤ m.stack.length then
      let results := (m.stack.take arity).reverse
      let below : Machine τ κ := { m with stack := m.stack.drop arity }
      some (.apply function results, below.push <$> h.apply function results)
    else none
  | declareConst symbol sort =>
    some (.declareConst symbol sort, m.keep <$> h.declareConst symbol sort)
  | assert =>
    match m.stack with
    | result :: stack =>
      let below : Machine τ κ := { m with stack }
      some (.assert result, below.keep <$> h.assert result)
    | [] => none

/-- The run of a program from a machine and a state, with its calls, each with the state that it
finds, and with its outcome. It goes on behind a handler that succeeds and ends at the first one
that fails. The handler of the script comes last and gets what was kept, with nothing left on the
stack. -/
inductive Runs (h : Handlers σ ε τ κ ω) : List Instruction → Machine τ κ → σ →
    List (Call τ κ × σ) → EStateM.Result ε σ ω → Prop where
  | script {kept : List κ} {st : σ} : Runs h [] { kept } st [(.script kept, st)] (h.script kept st)
  | fail {i : Instruction} {program : List Instruction} {m : Machine τ κ} {st st' : σ}
      {call : Call τ κ} {answer : EStateM ε σ (Machine τ κ)} {e : ε}
      (called : i.call h m = some (call, answer)) (failed : answer st = .error e st') :
      Runs h (i :: program) m st [(call, st)] (.error e st')
  | next {i : Instruction} {program : List Instruction} {m m' : Machine τ κ} {st st' : σ}
      {call : Call τ κ} {answer : EStateM ε σ (Machine τ κ)} {calls : List (Call τ κ × σ)}
      {outcome : EStateM.Result ε σ ω} (called : i.call h m = some (call, answer))
      (done : answer st = .ok m' st') (later : Runs h program m' st' calls outcome) :
      Runs h (i :: program) m st ((call, st) :: calls) outcome

namespace Runs

variable {h : Handlers σ ε τ κ ω} {program : List Instruction} {m : Machine τ κ} {st : σ}
variable {calls calls' : List (Call τ κ × σ)} {outcome outcome' : EStateM.Result ε σ ω}

/-- A program has one run. -/
theorem unique (run : Runs h program m st calls outcome)
    (run' : Runs h program m st calls' outcome') : calls = calls' ∧ outcome = outcome' := by
  induction run generalizing calls' with
  | script =>
    cases run' with
    | script => exact ⟨rfl, rfl⟩
  | fail called failed =>
    cases run' with
    | fail called' failed' =>
      cases called.symm.trans called'
      cases failed.symm.trans failed'
      exact ⟨rfl, rfl⟩
    | next called' done' _ =>
      cases called.symm.trans called'
      cases failed.symm.trans done'
  | next called done _ ih =>
    cases run' with
    | fail called' failed' =>
      cases called.symm.trans called'
      cases done.symm.trans failed'
    | next called' done' later' =>
      cases called.symm.trans called'
      cases done.symm.trans done'
      obtain ⟨rfl, rfl⟩ := ih later'
      exact ⟨rfl, rfl⟩

end Runs

/-- The results of as many arguments as an application has leave the stack again. -/
theorem Instruction.call_apply {h : Handlers σ ε τ κ ω} {m : Machine τ κ} (function : String)
    {results : List τ} {arity : Nat} (length : results.length = arity) :
    (Instruction.apply function arity).call h (m.pushAll results) =
      some (.apply function results, m.push <$> h.apply function results) := by
  subst length
  simp [Instruction.call, Machine.pushAll]

/-- Two sets of handlers give a call the same answer, in the state that it finds. -/
def Handlers.AgreeAt (h h' : Handlers σ ε τ κ ω) : Call τ κ × σ → Prop
  | (.constant value, st) => h.constant value st = h'.constant value st
  | (.identifier name, st) => h.identifier name st = h'.identifier name st
  | (.apply function args, st) => h.apply function args st = h'.apply function args st
  | (.declareConst symbol sort, st) =>
    h.declareConst symbol sort st = h'.declareConst symbol sort st
  | (.assert term, st) => h.assert term st = h'.assert term st
  | (.script kept, st) => h.script kept st = h'.script kept st

/-- Where handlers agree on a call, an instruction makes it with either, to the same effect. -/
theorem Instruction.call_of_agreeAt {h h' : Handlers σ ε τ κ ω} {m : Machine τ κ}
    {i : Instruction} {call : Call τ κ} {answer : EStateM ε σ (Machine τ κ)} {st : σ}
    (called : i.call h m = some (call, answer)) (agree : h.AgreeAt h' (call, st)) :
    ∃ answer', i.call h' m = some (call, answer') ∧ answer' st = answer st := by
  have mapped {β : Type} {f : β → Machine τ κ} {x y : EStateM ε σ β} (same : x st = y st) :
      (f <$> y) st = (f <$> x) st := by
    simp only [Functor.map, EStateM.map, same]
  cases i with
  | constant value =>
    cases called
    exact ⟨_, rfl, mapped agree⟩
  | identifier name =>
    cases called
    exact ⟨_, rfl, mapped agree⟩
  | apply function arity =>
    by_cases enough : arity ≤ m.stack.length
    · rw [Instruction.call, if_pos enough] at called
      cases called
      exact ⟨_, if_pos enough, mapped agree⟩
    · rw [Instruction.call, if_neg enough] at called
      cases called
  | declareConst symbol sort =>
    cases called
    exact ⟨_, rfl, mapped agree⟩
  | assert =>
    obtain ⟨_ | ⟨result, stack⟩, kept⟩ := m
    · cases called
    · cases called
      exact ⟨_, rfl, mapped agree⟩

/-- A run depends on the handlers only through the calls that it makes. -/
theorem Runs.of_agreeAt {h h' : Handlers σ ε τ κ ω} {program : List Instruction}
    {m : Machine τ κ} {st : σ} {calls : List (Call τ κ × σ)} {outcome : EStateM.Result ε σ ω}
    (run : Runs h program m st calls outcome) (agree : ∀ call ∈ calls, h.AgreeAt h' call) :
    Runs h' program m st calls outcome := by
  induction run with
  | @script kept st =>
    have same : h.script kept st = h'.script kept st := agree _ List.mem_cons_self
    rw [same]
    exact .script
  | fail called failed =>
    obtain ⟨answer, called', same⟩ :=
      Instruction.call_of_agreeAt called (agree _ List.mem_cons_self)
    exact .fail called' (same.trans failed)
  | next called done _ ih =>
    obtain ⟨here, onward⟩ := List.forall_mem_cons.mp agree
    obtain ⟨answer, called', same⟩ := Instruction.call_of_agreeAt called here
    exact .next called' (same.trans done) (ih onward)

/-- From every state, the run of a program from a machine has the outcome of a computation. -/
def Realizes (h : Handlers σ ε τ κ ω) (program : List Instruction) (m : Machine τ κ)
    (computation : EStateM ε σ ω) : Prop :=
  ∀ st, ∃ calls, Runs h program m st calls (computation st)

variable {h : Handlers σ ε τ κ ω} {program : List Instruction} {m : Machine τ κ}

namespace Realizes

/-- An instruction in front of a program calls its handler in front of what the program does. -/
theorem cons {β : Type} {i : Instruction} {call : Call τ κ} {answer : EStateM ε σ β}
    {after : β → Machine τ κ} {rest : β → EStateM ε σ ω}
    (called : i.call h m = some (call, after <$> answer))
    (later : ∀ b, Realizes h program (after b) (rest b)) :
    Realizes h (i :: program) m (answer >>= rest) := by
  intro st
  cases outcome : answer st with
  | ok b st' =>
    have done : (after <$> answer) st = .ok (after b) st' := by
      simp only [Functor.map, EStateM.map, outcome]
    obtain ⟨calls, run⟩ := later b st'
    rw [EStateM.bind_of_ok outcome]
    exact ⟨_, .next called done run⟩
  | error e st' =>
    have failed : (after <$> answer) st = .error e st' := by
      simp only [Functor.map, EStateM.map, outcome]
    rw [EStateM.bind_of_error outcome]
    exact ⟨_, .fail called failed⟩

/-- Arguments whose programs compute their walks leave all their results on the stack. -/
theorem postorderArgs {args : List Term}
    (each : ∀ arg ∈ args, ∀ (program : List Instruction) (m : Machine τ κ)
      (rest : τ → EStateM ε σ ω), (∀ result, Realizes h program (m.push result) (rest result)) →
        Realizes h (arg.postorder ++ program) m (arg.walk h >>= rest))
    {rest : List τ → EStateM ε σ ω}
    (later : ∀ results, results.length = args.length →
      Realizes h program (m.pushAll results) (rest results)) :
    Realizes h (Term.postorderArgs args ++ program) m (Term.walkArgs h args >>= rest) := by
  induction args generalizing m rest with
  | nil =>
    rw [Term.walkArgs, pure_bind]
    exact later [] rfl
  | cons arg args ih =>
    obtain ⟨first, others⟩ := List.forall_mem_cons.mp each
    simp only [Term.postorderArgs, Term.walkArgs, List.append_assoc, bind_assoc, pure_bind]
    refine first _ _ _ fun result => ih others fun results arity => ?_
    rw [← Machine.pushAll_cons]
    exact later _ (congrArg Nat.succ arity)

/-- The program of a term computes its walk and leaves the result on the stack. -/
theorem postorder (t : Term) {rest : τ → EStateM ε σ ω}
    (later : ∀ result, Realizes h program (m.push result) (rest result)) :
    Realizes h (t.postorder ++ program) m (t.walk h >>= rest) := by
  induction t generalizing program m rest with
  | constant value => exact cons rfl later
  | identifier name => exact cons rfl later
  | apply function args each =>
    simp only [Term.postorder, Term.walk, List.append_assoc, bind_assoc]
    -- The results of the arguments lie on whatever was there, and the application takes no more.
    refine postorderArgs (fun arg member _ _ _ => each arg member) fun results arity => ?_
    exact cons (Instruction.call_apply function arity) later

/-- The program of a command computes its walk and has its result kept. -/
theorem command (command : Command) {kept : List κ} {rest : Option κ → EStateM ε σ ω}
    (later : ∀ result, Realizes h program { kept := kept ++ result.toList } (rest result)) :
    Realizes h (command.program ++ program) { kept } (command.walk h >>= rest) := by
  cases command with
  | declareConst symbol sort => exact cons rfl later
  | assert term =>
    simp only [Command.program, Command.walk, List.append_assoc, bind_assoc]
    exact postorder term fun result => cons rfl later

/-- The programs of commands in a row compute their walk and have all their results kept. -/
theorem commands (commands : List Command) {kept : List κ} {rest : List κ → EStateM ε σ ω}
    (later : ∀ results, Realizes h program { kept := kept ++ results } (rest results)) :
    Realizes h (commands.flatMap Command.program ++ program) { kept }
      (Script.walkCommands h commands >>= rest) := by
  induction commands generalizing kept rest with
  | nil =>
    rw [Script.walkCommands, pure_bind]
    simpa using later []
  | cons head tail ih =>
    simp only [List.flatMap_cons, Script.walkCommands, List.append_assoc, bind_assoc, pure_bind]
    refine command head fun result => ih fun results => ?_
    rw [List.append_assoc]
    exact later _

end Realizes

/-- The program of a script computes its walk. -/
theorem Script.realizes_program (h : Handlers σ ε τ κ ω) (s : Script) :
    Realizes h s.program {} (s.walk h) := by
  have walked : Realizes h (s.program ++ []) {} (s.walk h) :=
    Realizes.commands s.commands fun results st => ⟨_, .script⟩
  rwa [List.append_nil] at walked

namespace Handlers

/-- Terms are built again as they are. -/
theorem rebuild_term (t : Term) (st : σ) : (t.walk rebuild : EStateM ε σ Term) st = .ok t st := by
  induction t with
  | constant value => rfl
  | identifier name => rfl
  | apply function args each =>
    have rebuilt : (Term.walkArgs rebuild args : EStateM ε σ (List Term)) st = .ok args st := by
      induction args with
      | nil => rfl
      | cons arg args ih =>
        obtain ⟨first, others⟩ := List.forall_mem_cons.mp each
        rw [Term.walkArgs, EStateM.bind_of_ok first, EStateM.bind_of_ok (ih others)]
        rfl
    rw [Term.walk, EStateM.bind_of_ok rebuilt]
    rfl

theorem rebuild_command (command : Command) (st : σ) :
    (command.walk rebuild : EStateM ε σ (Option Command)) st = .ok (some command) st := by
  cases command with
  | declareConst symbol sort => rfl
  | assert term =>
    rw [Command.walk, EStateM.bind_of_ok (rebuild_term term st)]
    rfl

theorem rebuild_commands (commands : List Command) (st : σ) :
    (Script.walkCommands rebuild commands : EStateM ε σ (List Command)) st = .ok commands st := by
  induction commands with
  | nil => rfl
  | cons command commands ih =>
    rw [Script.walkCommands, EStateM.bind_of_ok (rebuild_command command st),
      EStateM.bind_of_ok ih]
    rfl

/-- Every script is built again as it is. -/
theorem rebuild_script (s : Script) (st : σ) :
    (s.walk rebuild : EStateM ε σ Script) st = .ok s st := by
  rw [Script.walk, EStateM.bind_of_ok (rebuild_commands s.commands st)]
  rfl

end Handlers

/-- A walk does what the program of its script does from the same state, with nothing on the stack
and nothing kept. Handlers that give the calls of that run the same answers have the same walk, so
no other handler is called. With the handlers that build every node again and keep every command,
the walk gives the script back. -/
theorem Script.walk_eq_iff_runs (h : Handlers σ ε τ κ ω) (s : Script) (st : σ) :
    (∀ outcome, s.walk h st = outcome ↔ ∃ calls, Runs h s.program {} st calls outcome) ∧
      (∀ calls outcome, Runs h s.program {} st calls outcome →
        ∀ h' : Handlers σ ε τ κ ω, (∀ call ∈ calls, h.AgreeAt h' call) →
          s.walk h' st = outcome) ∧
      (s.walk Handlers.rebuild : EStateM ε σ Script) st = .ok s st := by
  have unique (h : Handlers σ ε τ κ ω) {calls : List (Call τ κ × σ)}
      {outcome : EStateM.Result ε σ ω} (run : Runs h s.program {} st calls outcome) :
      s.walk h st = outcome := by
    obtain ⟨_, walked⟩ := s.realizes_program h st
    exact (walked.unique run).2
  refine ⟨fun outcome => ⟨?_, fun ⟨calls, run⟩ => unique h run⟩, ?_, Handlers.rebuild_script s st⟩
  · rintro rfl
    exact s.realizes_program h st
  · intro calls outcome run h' agree
    exact unique h' (run.of_agreeAt agree)

end NetSpec
