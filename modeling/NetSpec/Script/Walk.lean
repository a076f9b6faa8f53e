import NetSpec.Script.Basic

/-!
# Walking a script

`Handlers` has one handler for each kind of node. A walk visits the nodes of a term in post
order, arguments from left to right, and hands each handler the results for the arguments.
Commands are handled in order, those results that are kept are collected, and the last
handler gets them all. The state goes through the handlers, and the first failure ends the
walk with the state that its handler left.

So several readings of a script share one walk and differ in their handlers alone.
-/

namespace NetSpec

/-- Handlers for the nodes of a script, over a state `σ` and failures `ε`. Terms become `τ`,
commands `κ` and scripts `ω`. A command without a result is left out; declarations have none
unless a handler says otherwise. -/
structure Handlers (σ ε τ κ ω : Type) where
  constant : Constant → EStateM ε σ τ
  identifier : String → EStateM ε σ τ
  apply : String → List τ → EStateM ε σ τ
  declareConst : String → String → EStateM ε σ (Option κ) := fun _ _ => pure none
  assert : τ → EStateM ε σ (Option κ)
  script : List κ → EStateM ε σ ω

variable {σ ε τ κ ω : Type}

mutual

/-- Walk a term. -/
def Term.walk (h : Handlers σ ε τ κ ω) : Term → EStateM ε σ τ
  | .apply function args => do h.apply function (← Term.walkArgs h args)
  | .constant c => h.constant c
  | .identifier name => h.identifier name

/-- Walk arguments from left to right. -/
def Term.walkArgs (h : Handlers σ ε τ κ ω) : List Term → EStateM ε σ (List τ)
  | [] => pure []
  | arg :: args => do
    let result ← Term.walk h arg
    let results ← Term.walkArgs h args
    pure (result :: results)

end

/-- Walk a command. -/
def Command.walk (h : Handlers σ ε τ κ ω) : Command → EStateM ε σ (Option κ)
  | .declareConst symbol sort => h.declareConst symbol sort
  | .assert term => do h.assert (← term.walk h)

/-- Walk commands in order and collect the results that are kept. -/
def Script.walkCommands (h : Handlers σ ε τ κ ω) : List Command → EStateM ε σ (List κ)
  | [] => pure []
  | command :: commands => do
    let result ← command.walk h
    let results ← Script.walkCommands h commands
    pure (result.toList ++ results)

/-- Walk a script. -/
def Script.walk (h : Handlers σ ε τ κ ω) (s : Script) : EStateM ε σ ω := do
  h.script (← Script.walkCommands h s.commands)

namespace Handlers

/-- The depth of terms: a leaf has depth one, an application one more than its deepest
argument. Assertions keep the depth of their term, and a script gives the depths kept. -/
def depth : Handlers σ ε Nat Nat (List Nat) where
  constant _ := pure 1
  identifier _ := pure 1
  apply _ args := pure (1 + args.foldl max 0)
  assert d := pure (some d)
  script := pure

/-- Build every node again and keep every command. -/
def rebuild : Handlers σ ε Term Command Script where
  constant c := pure (.constant c)
  identifier name := pure (.identifier name)
  apply function args := pure (.apply function args)
  declareConst symbol sort := pure (some (.declareConst symbol sort))
  assert term := pure (some (.assert term))
  script commands := pure ⟨commands⟩

end Handlers

/-- A handler that is about to run, with what it is given. -/
inductive Visit where
  | constant (value : Constant)
  | identifier (name : String)
  | apply (function : String) (args : List Term)
  | declareConst (symbol sort : String)
  | assert (term : Term)
  | script (commands : List Command)

/-- Let an observer see each visit before its handler runs. An observer that fails ends the
walk there. -/
def Handlers.observed (h : Handlers σ ε Term Command Script)
    (observe : Visit → EStateM ε σ Unit) : Handlers σ ε Term Command Script where
  constant c := do observe (.constant c); h.constant c
  identifier name := do observe (.identifier name); h.identifier name
  apply function args := do observe (.apply function args); h.apply function args
  declareConst symbol sort := do observe (.declareConst symbol sort); h.declareConst symbol sort
  assert term := do observe (.assert term); h.assert term
  script commands := do observe (.script commands); h.script commands

end NetSpec
