import NetSpec.Compiler.Basic
import NetSpec.Script.Parser

/-!
# A diary of compiling

A diary follows a compiler and notes what it does, for a reader who wants to know how a
script became its properties. The handlers of the compiler run unchanged underneath, so what
is compiled does not depend on the diary.
-/

namespace NetSpec

/-- How much an entry matters. -/
inductive Level where
  | warn
  | debug
  | trace
deriving DecidableEq, Repr

/-- One entry. -/
inductive Entry where
  | warning (warning : Warning)
  | declared (symbol sort : String)
  | assertedAtom (atom : Atom Float)
  | assertedConjunction (rows : Nat)
  | assertedDisjunction (alternatives : Nat)
  | multiplied (alternatives branches : Nat)
  | sizes (input output : Nat)
  | branches (commonRows branches : Nat)
  | infeasible (branch : Nat)
  | properties (count : Nat)

namespace Entry

def level : Entry → Level
  | warning _ => .warn
  | sizes .. | branches .. | infeasible _ | properties _ => .debug
  | _ => .trace

def message : Entry → String
  | warning w => w.message
  | declared symbol sort => "declare-const " ++ symbol ++ " " ++ sort
  | assertedAtom atom => "assert " ++ atom.text
  | assertedConjunction rows => "assert conjunction of " ++ rows.repr ++ " rows"
  | assertedDisjunction n => "assert disjunction of " ++ n.repr ++ " alternatives"
  | multiplied n total =>
    "disjunction of " ++ n.repr ++ " alternatives: " ++ total.repr ++ " branches"
  | sizes input output =>
    "input size: " ++ input.repr ++ ", output size: " ++ output.repr
  | branches rows n => rows.repr ++ " common rows, " ++ n.repr ++ " branches"
  | infeasible i => "branch " ++ i.repr ++ " is infeasible"
  | properties n => n.repr ++ " properties"

/-- The entry for the assertion of a value, which an expression does not have. -/
def ofValue? : Value Float → Option Entry
  | .atom a => some (.assertedAtom a)
  | .conjunction rows => some (.assertedConjunction rows.length)
  | .disjunction alternatives => some (.assertedDisjunction alternatives.length)
  | .expression _ => none

end Entry

/-- The numbers of the branches that never hold, up to the first that cannot be assembled;
`i` is the number of the first branch given. -/
def infeasibleBranches (dims : Dimensions) (i : Nat) : Disjunction Float → List Nat
  | [] => []
  | rows :: branches =>
    match Region.ofRows? rows dims with
    | .error _ => []
    | .ok none => i :: infeasibleBranches dims (i + 1) branches
    | .ok (some _) => infeasibleBranches dims (i + 1) branches

/-- A compiler and the entries made, the latest first. -/
structure Diary where
  compiler : Compiler Float
  entries : List Entry

namespace Diary

/-- A handler of a diary. -/
abbrev M := EStateM (CompileError Float) Diary

/-- Make an entry. -/
def note (entry : Entry) : M Unit :=
  modify fun d => { d with entries := entry :: d.entries }

/-- Let the compiler act; the entries stay. -/
def act {β : Type} (m : Compiler.M Float β) : M β := fun d =>
  match m d.compiler with
  | .ok b c => .ok b { d with compiler := c }
  | .error e c => .error e { d with compiler := c }

/-- The handlers of a compiler, with entries. -/
def handlers : Handlers Diary (CompileError Float) (Value Float) Unit (List (Property Float)) :=
  let inner := Compiler.handlers
  { constant := fun k => act (inner.constant k)
    identifier := fun name => act (inner.identifier name)
    apply := fun function args => act (inner.apply function args)
    declareConst := fun symbol sort => do
      note (.declared symbol sort)
      act (inner.declareConst symbol sort)
    assert := fun value => do
      (Entry.ofValue? value).forM note
      let result ← act (inner.assert value)
      match value with
      | .disjunction [_] => pure ()
      | .disjunction alternatives =>
        note (.multiplied alternatives.length (← get).compiler.branches.alternatives.length)
      | _ => pure ()
      return result
    script := fun results => do
      let c := (← get).compiler
      note (.sizes c.inputSize c.outputSize)
      note (.branches c.branches.common.length c.branches.alternatives.length)
      (infeasibleBranches c.dimensions 0 c.branches.rows).forM fun i => note (.infeasible i)
      let properties ← act (inner.script results)
      note (.properties properties.length)
      return properties }

end Diary

/-- Compile a script, and the entries made on the way, in order. -/
def Script.compileWithDiary (script : Script) (config : Configuration) :
    Except (CompileError Float) (List (Property Float)) × List Entry :=
  match (script.walk Diary.handlers).run ⟨.new config, []⟩ with
  | .ok properties d => (.ok properties, d.entries.reverse)
  | .error e d => (.error e, d.entries.reverse)

end NetSpec
