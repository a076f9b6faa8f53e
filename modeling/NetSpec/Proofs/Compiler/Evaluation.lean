import NetSpec.Compiler.Basic
import NetSpec.Proofs.Constraint.NormalForm
import NetSpec.Proofs.Result
import NetSpec.Proofs.Script.Term

/-!
# Evaluation apart from the numbering of names

A compiler numbers other names as it meets them, so the key of a name hangs on what has been
compiled before. A number never changes once it has been given. Hence a whole run can be
described with the table of names that it ends with: `Term.evaluate` takes the keys of names
from outside and has no state.

`Compiler.follows_walk` compares the two. A compiler evaluates a term as `Term.evaluate` does with
the keys of any table that extends what the compiler has then noted, and nothing but its
table changes. `Compiler.walkCommands_eq` carries this through the commands of a script, and
`Compiler.result_script` is the resulting closed form of compiling: evaluate every asserted term
with the final table, assert the values in order, assemble the branches. `Script.compile_eq` says
so of a compiler that starts anew.
-/

namespace NetSpec

namespace Configuration

/-- The key of a name, where a table gives the other names their numbers. -/
def keyIn (config : Configuration) (others : List String) (name : String) : Key :=
  (config.component? name).getD (.other (others.idxOf name))

/-- A name that needs no new number. -/
def Knows (config : Configuration) (others : List String) (name : String) : Prop :=
  (config.component? name).isSome ∨ name ∈ others

instance (config : Configuration) (others : List String) (name : String) :
    Decidable (config.Knows others name) :=
  inferInstanceAs (Decidable (_ ∨ _))

/-- The table after a name has been met. -/
def note (config : Configuration) (others : List String) (name : String) : List String :=
  if config.Knows others name then others else others ++ [name]

/-- The table after several names have been met. -/
def noteAll (config : Configuration) (others names : List String) : List String :=
  names.foldl config.note others

/-- The key of a component comes from one of the two names of vectors. -/
theorem component?_cases {config : Configuration} {name : String} {key : Key}
    (found : config.component? name = some key) :
    (∃ i, indexIn? config.inputName name = some i ∧ key = .input i) ∨
      (∃ j, indexIn? config.inputName name = none ∧
        indexIn? config.outputName name = some j ∧ key = .output j) := by
  simp only [component?] at found
  split at found
  next i read => exact .inl ⟨i, read, (Option.some.inj found).symm⟩
  next unread =>
    obtain ⟨j, read, rfl⟩ := Option.map_eq_some_iff.mp found
    exact .inr ⟨j, unread, read, rfl⟩

variable (config : Configuration)

theorem prefix_note (others : List String) (name : String) :
    others <+: config.note others name := by
  simp only [note]
  split
  · exact List.prefix_rfl
  · exact List.prefix_append ..

theorem prefix_noteAll (others names : List String) : others <+: config.noteAll others names := by
  induction names generalizing others with
  | nil => exact List.prefix_rfl
  | cons name names ih => exact (config.prefix_note others name).trans (ih _)

theorem knows_note (others : List String) (name : String) :
    config.Knows (config.note others name) name := by
  simp only [note]
  split
  next known => exact known
  next => exact .inr (by simp)

/-- A name that has been met is known. -/
theorem knows_noteAll {names : List String} {name : String} (met : name ∈ names)
    (others : List String) : config.Knows (config.noteAll others names) name := by
  obtain ⟨before, after, rfl⟩ := List.mem_iff_append.mp met
  have known := config.knows_note (config.noteAll others before) name
  have extended := config.prefix_noteAll (config.note (config.noteAll others before) name) after
  rw [noteAll, List.foldl_append, List.foldl_cons]
  rcases known with component | listed
  · exact .inl component
  · exact .inr (extended.subset listed)

theorem noteAll_append (others names more : List String) :
    config.noteAll others (names ++ more) = config.noteAll (config.noteAll others names) more :=
  List.foldl_append

/-- A number that has been given is kept. -/
theorem keyIn_of_prefix {others later : List String} {name : String}
    (known : config.Knows others name) (extended : others <+: later) :
    config.keyIn later name = config.keyIn others name := by
  obtain ⟨added, rfl⟩ := extended
  simp only [keyIn]
  rcases known with component | member
  · obtain ⟨key, found⟩ := Option.isSome_iff_exists.mp component
    simp [found]
  · rw [List.idxOf_append_of_mem member]

variable {config}

/-- A name with the key of another variable is no component. -/
theorem component?_of_keyIn_other {others : List String} {name : String} {id : Nat}
    (key : config.keyIn others name = .other id) : config.component? name = none := by
  cases found : config.component? name with
  | none => rfl
  | some found' =>
    have same : config.keyIn others name = found' := by rw [keyIn, found]; rfl
    rw [key] at same
    rcases component?_cases found with ⟨i, _, input⟩ | ⟨j, _, _, output⟩
    · have never := same.trans input
      cases never
    · have never := same.trans output
      cases never

theorem idxOf_of_keyIn_other {others : List String} {name : String} {id : Nat}
    (key : config.keyIn others name = .other id) : others.idxOf name = id := by
  rw [keyIn, component?_of_keyIn_other key] at key
  exact Key.other.inj key

/-- The number of a known name tells the name. -/
theorem getElem?_of_keyIn_other {others : List String} {name : String} {id : Nat}
    (known : config.Knows others name) (key : config.keyIn others name = .other id) :
    others[id]? = some name := by
  have listed : name ∈ others := by simpa [Knows, component?_of_keyIn_other key] using known
  rw [← idxOf_of_keyIn_other key]
  exact List.getElem?_idxOf listed

variable (config)

/-- The size that a vector has once a name is declared; a size that is given stays. -/
def sizeWith (given : Option Nat) (index? : Key → Option Nat) (size : Nat) (name : String) :
    Nat :=
  match given, (config.component? name).bind index? with
  | none, some i => max size (i + 1)
  | _, _ => size

/-- The size of the input vector after declarations. -/
def inputSizeOf (size : Nat) (declared : List String) : Nat :=
  declared.foldl (config.sizeWith config.inputSize Key.inputIndex?) size

/-- The size of the output vector after declarations. -/
def outputSizeOf (size : Nat) (declared : List String) : Nat :=
  declared.foldl (config.sizeWith config.outputSize Key.outputIndex?) size

end Configuration

variable {α : Type}

/-- What asserting a value asserts. An expression is no constraint. -/
def Value.assertion : Value α → Except (CompileError α) (Assertion α)
  | .atom a => .ok (.all [a])
  | .conjunction rows => .ok (.all rows)
  | .disjunction alternatives => .ok (.any alternatives)
  | .expression _ => .error .notAConstraint

namespace Compiler

/-- The compiler after it has met names. -/
def noting (c : Compiler α) (names : List String) : Compiler α :=
  { c with others := c.config.noteAll c.others names }

theorem noting_append (c : Compiler α) (names more : List String) :
    c.noting (names ++ more) = (c.noting names).noting more := by
  simp [noting, Configuration.noteAll_append]

/-- Looking up a key notes the name. -/
theorem key_eq (c : Compiler α) (name : String) :
    c.key name = (c.config.keyIn (c.config.note c.others name) name, c.noting [name]) := by
  have noted : c.noting [name] = { c with others := c.config.note c.others name } := rfl
  have position := c.others.idxOf_eq_getD_idxOf? name
  rw [noted]
  cases component : c.config.component? name with
  | some found =>
    have known : c.config.Knows c.others name := .inl (by simp [component])
    simp [key, component, Configuration.keyIn, Configuration.note, if_pos known]
  | none =>
    cases found : c.others.idxOf? name with
    | some id =>
      have known : c.config.Knows c.others name := .inr (List.isSome_idxOf?.mp (by simp [found]))
      rw [found] at position
      simp [key, component, found, Configuration.keyIn, Configuration.note, if_pos known, position]
    | none =>
      have absent : name ∉ c.others := List.idxOf?_eq_none_iff.mp found
      have unknown : ¬ c.config.Knows c.others name := by
        simp [Configuration.Knows, component, absent]
      simp [key, component, found, Configuration.keyIn, Configuration.note, if_neg unknown,
        List.idxOf_append_of_notMem absent]

/-- A declaration notes the name and may extend a size. -/
theorem declare_eq (c : Compiler α) (name : String) :
    c.declare name =
      { c.noting [name] with
        inputSize := c.config.sizeWith c.config.inputSize Key.inputIndex? c.inputSize name
        outputSize := c.config.sizeWith c.config.outputSize Key.outputIndex? c.outputSize name } := by
  rw [declare, key_eq]
  cases component : c.config.component? name with
  | none =>
    simp [Configuration.keyIn, component, cover, Configuration.sizeWith, noting]
  | some found =>
    cases found <;> cases given : c.config.inputSize <;> cases given' : c.config.outputSize <;>
      simp [Configuration.keyIn, component, cover, Configuration.sizeWith, noting,
        Key.inputIndex?, Key.outputIndex?, given, given']

end Compiler

/-- A command that leaves no result behind only changes the state. -/
theorem Script.walkCommands_of_none {σ ε τ κ ω : Type} {h : Handlers σ ε τ κ ω}
    {command : Command} {commands : List Command} {s s' : σ}
    (walked : command.walk h s = .ok none s') :
    Script.walkCommands h (command :: commands) s = Script.walkCommands h commands s' := by
  rw [Script.walkCommands, EStateM.bind_of_ok walked]
  simp

variable [Scalar α]

mutual

/-- The value of a term whose names have given keys. -/
def Term.evaluate (keyOf : String → Key) : Term → Except (CompileError α) (Value α)
  | .apply function args => do Value.apply function (← Term.evaluateArgs keyOf args)
  | .constant value => Value.ofConstant value
  | .identifier name => .ok (.expression (.ofKey (keyOf name)))

def Term.evaluateArgs (keyOf : String → Key) :
    List Term → Except (CompileError α) (List (Value α))
  | [] => .ok []
  | arg :: args => do
    let value ← Term.evaluate keyOf arg
    let values ← Term.evaluateArgs keyOf args
    return value :: values

end

theorem Term.evaluateArgs_eq (keyOf : String → Key) (args : List Term) :
    Term.evaluateArgs keyOf args =
      (args.mapM (Term.evaluate keyOf) : Except (CompileError α) (List (Value α))) := by
  induction args with
  | nil => rfl
  | cons arg args ih => rw [Term.evaluateArgs, ih, List.mapM_cons]

namespace Compiler

/-- A compiler in state `c` does as evaluation says: its result is that of `evaluated`, and
it has met `names`, or a first part of them when it fails. -/
def Follows {β : Type} (run : M α β) (c : Compiler α) (names : List String)
    (evaluated : Except (CompileError α) β) : Prop :=
  match evaluated with
  | .ok value => run c = .ok value (c.noting names)
  | .error e => ∃ met, met <+: names ∧ run c = .error e (c.noting met)

omit [Scalar α] in
theorem Follows.ofExcept {β : Type} (c : Compiler α) (result : Except (CompileError α) β) :
    Follows (ofExcept result) c [] result := by
  cases result with
  | ok value => rfl
  | error e => exact ⟨[], List.prefix_rfl, rfl⟩

omit [Scalar α] in
/-- Steps in a row meet the names of both. -/
theorem Follows.bind {β γ : Type} {run : M α β} {next : β → M α γ} {c : Compiler α}
    {names more : List String} {evaluated : Except (CompileError α) β}
    {later : β → Except (CompileError α) γ} (first : Follows run c names evaluated)
    (second : ∀ value, Follows (next value) (c.noting names) more (later value)) :
    Follows (run >>= next) c (names ++ more) (evaluated >>= later) := by
  cases evaluated with
  | error e =>
    obtain ⟨met, earlier, failed⟩ := first
    exact ⟨met, earlier.trans (List.prefix_append ..), EStateM.bind_of_error failed⟩
  | ok value =>
    have started : (run >>= next) c = next value (c.noting names) := EStateM.bind_of_ok first
    have rest := second value
    show Follows (run >>= next) c (names ++ more) (later value)
    cases outcome : later value with
    | ok result =>
      rw [outcome] at rest
      exact started.trans (rest.trans (by rw [noting_append]))
    | error e =>
      rw [outcome] at rest
      obtain ⟨met, earlier, failed⟩ := rest
      refine ⟨names ++ met, (List.prefix_append_right_inj names).mpr earlier, ?_⟩
      rw [noting_append]
      exact started.trans failed

/-- A compiler evaluates arguments as it does each of them. -/
theorem follows_walkArgs {args : List Term} {table : List String} {keyOf : String → Key}
    (each : ∀ arg ∈ args, ∀ c : Compiler α, c.config.noteAll c.others arg.names <+: table →
      c.config.keyIn table = keyOf → Follows (arg.walk handlers) c arg.names (arg.evaluate keyOf))
    (c : Compiler α) (noted : c.config.noteAll c.others (Term.namesArgs args) <+: table)
    (keys : c.config.keyIn table = keyOf) :
    Follows (Term.walkArgs handlers args) c (Term.namesArgs args)
      (Term.evaluateArgs keyOf args) := by
  induction args generalizing c with
  | nil => rfl
  | cons arg args ih =>
    rw [Term.namesArgs, Configuration.noteAll_append] at noted
    refine Follows.bind (each arg (by simp) c
      ((c.config.prefix_noteAll _ _).trans noted) keys) fun value => ?_
    have others := ih (fun arg member => each arg (by simp [member])) (c.noting arg.names)
      noted keys
    rw [← List.append_nil (Term.namesArgs args)]
    exact Follows.bind others fun values => rfl

/-- A compiler evaluates a term with the numbers of any table that extends its own. -/
theorem follows_walk (t : Term) {table : List String} {keyOf : String → Key} (c : Compiler α)
    (noted : c.config.noteAll c.others t.names <+: table) (keys : c.config.keyIn table = keyOf) :
    Follows (t.walk handlers) c t.names (t.evaluate keyOf) := by
  induction t generalizing c with
  | constant value => exact Follows.ofExcept c (Value.ofConstant value)
  | identifier name =>
    have key : c.config.keyIn (c.config.note c.others name) name = keyOf name := by
      rw [← keys]
      exact (c.config.keyIn_of_prefix (c.config.knows_note c.others name) noted).symm
    show EStateM.Result.ok (Value.expression (.ofKey (c.key name).1)) (c.key name).2 = _
    rw [key_eq, key]
    rfl
  | apply function args ih =>
    have others := follows_walkArgs (fun arg member c => ih arg member c) c noted keys
    rw [Term.names, ← List.append_nil (Term.namesArgs args)]
    exact Follows.bind others fun values => Follows.ofExcept _ _

end Compiler

/-- What asserting a term asserts when names have given keys. -/
def Term.assertion (keyOf : String → Key) (t : Term) : Except (CompileError α) (Assertion α) := do
  (← t.evaluate keyOf).assertion

namespace Compiler

/-- The compiler after a term has asserted something. -/
def asserting (c : Compiler α) (t : Term) (assertion : Assertion α) : Compiler α :=
  { c.noting t.names with branches := c.branches.assert assertion }

/-- The compiler after commands whose terms assert what is given. -/
def after (c : Compiler α) (commands : List Command) (assertions : List (Assertion α)) :
    Compiler α where
  config := c.config
  inputSize := c.config.inputSizeOf c.inputSize (commands.filterMap Command.declared?)
  outputSize := c.config.outputSizeOf c.outputSize (commands.filterMap Command.declared?)
  others := c.config.noteAll c.others (commands.flatMap Command.names)
  branches := assertions.foldl Branches.assert c.branches

omit [Scalar α] in
theorem after_declareConst (c : Compiler α) (symbol sort : String) (commands : List Command)
    (assertions : List (Assertion α)) :
    (c.declare symbol).after commands assertions =
      c.after (.declareConst symbol sort :: commands) assertions := by
  rw [declare_eq]
  rfl

omit [Scalar α] in
theorem after_assert (c : Compiler α) (t : Term) (assertion : Assertion α)
    (commands : List Command) (assertions : List (Assertion α)) :
    (c.asserting t assertion).after commands assertions =
      c.after (.assert t :: commands) (assertion :: assertions) := by
  simp [after, asserting, noting, Configuration.noteAll_append, Command.names, List.filterMap_cons,
    Command.declared?]

/-- A compiler takes an assertion as evaluation says, and one that fails has met names only. -/
theorem walk_assert (t : Term) {table : List String} {keyOf : String → Key} (c : Compiler α)
    (noted : c.config.noteAll c.others t.names <+: table) (keys : c.config.keyIn table = keyOf) :
    match (t.assertion keyOf : Except (CompileError α) (Assertion α)) with
    | .ok assertion => (Command.assert t).walk handlers c = .ok none (c.asserting t assertion)
    | .error e => ∃ met, (Command.assert t).walk handlers c = .error e (c.noting met) := by
  have evaluated := follows_walk t c noted keys
  simp only [Term.assertion]
  cases outcome : (t.evaluate keyOf : Except (CompileError α) (Value α)) with
  | error e =>
    rw [outcome] at evaluated
    obtain ⟨met, _, failed⟩ := evaluated
    exact ⟨met, EStateM.bind_of_error failed⟩
  | ok value =>
    rw [outcome] at evaluated
    have started : (Command.assert t).walk handlers c =
        handlers.assert value (c.noting t.names) := EStateM.bind_of_ok evaluated
    cases value with
    | expression form => exact ⟨t.names, started⟩
    | atom a => exact started
    | conjunction rows => exact started
    | disjunction alternatives => exact started

/-- A compiler runs through commands as evaluation says, and collects nothing. -/
theorem walkCommands_eq (commands : List Command) (table : List String)
    {keyOf : String → Key} (c : Compiler α)
    (noted : c.config.noteAll c.others (commands.flatMap Command.names) <+: table)
    (keys : c.config.keyIn table = keyOf) :
    match ((commands.filterMap Command.asserted?).mapM (Term.assertion keyOf) :
      Except (CompileError α) (List (Assertion α))) with
    | .ok assertions => Script.walkCommands handlers commands c =
        .ok [] (c.after commands assertions)
    | .error e => ∃ c', Script.walkCommands handlers commands c = .error e c' := by
  induction commands generalizing c with
  | nil => rfl
  | cons command commands ih =>
    rw [List.flatMap_cons, Configuration.noteAll_append] at noted
    cases command with
    | declareConst symbol sort =>
      have walked : (Command.declareConst symbol sort).walk handlers c =
          .ok none (c.declare symbol) := rfl
      have rest := ih (c.declare symbol) (by rwa [declare_eq]) (by rwa [declare_eq])
      rw [Script.walkCommands_of_none walked]
      simpa only [List.filterMap_cons, Command.asserted?, after_declareConst c symbol sort]
        using rest
    | assert t =>
      have first := walk_assert t c ((c.config.prefix_noteAll _ _).trans noted) keys
      simp only [List.filterMap_cons, Command.asserted?, List.mapM_cons]
      cases outcome : (t.assertion keyOf : Except (CompileError α) (Assertion α)) with
      | error e =>
        rw [outcome] at first
        obtain ⟨met, failed⟩ := first
        exact ⟨_, EStateM.bind_of_error failed⟩
      | ok assertion =>
        rw [outcome] at first
        have rest := ih (c.asserting t assertion) noted keys
        rw [Script.walkCommands_of_none first]
        cases others : ((commands.filterMap Command.asserted?).mapM (Term.assertion keyOf) :
            Except (CompileError α) (List (Assertion α))) with
        | error e =>
          rw [others] at rest
          exact rest
        | ok assertions =>
          rw [others] at rest
          show Script.walkCommands handlers commands (c.asserting t assertion) =
            .ok [] (c.after (.assert t :: commands) (assertion :: assertions))
          rw [← after_assert]
          exact rest

/-- The end of a script assembles the branches. -/
theorem handlers_script (results : List Unit) (c : Compiler α) :
    handlers.script results c = match c.branches.properties c.dimensions with
      | .ok properties => .ok properties c.reset
      | .error e => .error e c.reset := by
  have started : handlers.script results c =
      ofExcept (c.branches.properties c.dimensions) c.reset := rfl
  rw [started]
  cases c.branches.properties c.dimensions <;> rfl

/-- What a run results in, apart from the state that it leaves. -/
def result {β : Type} (run : M α β) (c : Compiler α) : Except (CompileError α) β :=
  match run c with
  | .ok value _ => .ok value
  | .error e _ => .error e

/-- What a term results in is its value with the keys of a table that extends what the compiler
has noted. -/
theorem result_eval (t : Term) (c : Compiler α) {table : List String}
    (noted : c.config.noteAll c.others t.names <+: table) :
    result (eval t) c = t.evaluate (c.config.keyIn table) := by
  have evaluated := follows_walk t c noted rfl
  simp only [result]
  cases outcome : (t.evaluate (c.config.keyIn table) : Except (CompileError α) (Value α)) with
  | ok value =>
    rw [outcome] at evaluated
    have run : eval t c = .ok value (c.noting t.names) := evaluated
    rw [run]
  | error e =>
    rw [outcome] at evaluated
    obtain ⟨met, _, failed⟩ := evaluated
    have run : eval t c = .error e (c.noting met) := failed
    rw [run]

/-- A compiler in any state compiles a script as evaluation says, with the numbers of any table
that extends its own, and assembles the branches that it had along with those of the script. -/
theorem result_script (s : Script) {table : List String} {keyOf : String → Key} (c : Compiler α)
    (noted : c.config.noteAll c.others s.names <+: table) (keys : c.config.keyIn table = keyOf) :
    result (script s) c = (do
      let assertions ← s.asserted.mapM (Term.assertion keyOf)
      (c.after s.commands assertions).branches.properties
        (c.after s.commands assertions).dimensions) := by
  have run : match (s.asserted.mapM (Term.assertion keyOf) :
        Except (CompileError α) (List (Assertion α))) with
      | .ok assertions => Script.walkCommands handlers s.commands c =
          .ok [] (c.after s.commands assertions)
      | .error e => ∃ c', Script.walkCommands handlers s.commands c = .error e c' :=
    walkCommands_eq s.commands table c noted keys
  have walked : script s c =
      (Script.walkCommands handlers s.commands >>= handlers.script) c := rfl
  rw [result, walked]
  cases outcome : (s.asserted.mapM (Term.assertion keyOf) :
      Except (CompileError α) (List (Assertion α))) with
  | error e =>
    rw [outcome] at run
    obtain ⟨c', failed⟩ := run
    rw [EStateM.bind_of_error failed]
    rfl
  | ok assertions =>
    rw [outcome] at run
    rw [EStateM.bind_of_ok run, handlers_script]
    cases assembled : (c.after s.commands assertions).branches.properties
        (c.after s.commands assertions).dimensions with
    | error e => exact assembled.symm
    | ok properties => exact assembled.symm

end Compiler

namespace Script

variable (s : Script) (config : Configuration)

/-- The names of a script that are no components, numbered by first sight. -/
def others : List String := config.noteAll [] s.names

/-- The keys that the names of a script have. -/
def keyOf : String → Key := config.keyIn (s.others config)

/-- The sizes and names that the branches of a script are assembled with. -/
def dimensions : Dimensions where
  inputSize := config.inputSizeOf (config.inputSize.getD 0) s.declared
  outputSize := config.outputSizeOf (config.outputSize.getD 0) s.declared
  others := s.others config

/-- The names of asserted terms are known once the names of a script have been met. -/
theorem knows_of_mem_asserted {t : Term} (asserted : t ∈ s.asserted) {name : String}
    (member : name ∈ t.names) (others : List String) :
    config.Knows (config.noteAll others s.names) name := by
  obtain ⟨command, listed, asserts⟩ := List.mem_filterMap.mp asserted
  cases command with
  | declareConst symbol sort => cases asserts
  | assert term =>
    obtain rfl := Option.some.inj asserts
    exact config.knows_noteAll (List.mem_flatMap.mpr ⟨_, listed, member⟩) others

/-- Compiling is evaluating the asserted terms one by one, asserting the values in order, and
assembling the branches. -/
theorem compile_eq : s.compile config = (do
    let assertions ← s.asserted.mapM (Term.assertion (s.keyOf config))
    (Branches.ofAssertions assertions).properties (s.dimensions config) :
      Except (CompileError α) (List (Property α))) := by
  have compiled : s.compile config =
      Compiler.result (Compiler.script s) (.new config : Compiler α) := by
    rw [compile, Compiler.result, EStateM.run]
    cases Compiler.script s (.new config : Compiler α) <;> rfl
  rw [compiled]
  exact Compiler.result_script s (.new config) List.prefix_rfl rfl

end Script

end NetSpec
