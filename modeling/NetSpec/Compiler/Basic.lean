import NetSpec.Compiler.Configuration
import NetSpec.Compiler.Value
import NetSpec.Property.Region
import NetSpec.Script.Walk

/-!
# Compiling scripts

A compiler visits the commands of scripts. Declarations determine the sizes that are not
given, assertions are evaluated and join the branches, and the end of a script turns the
branches into properties and starts anew. Names that are no components of the vectors get
numbers in the order of first sight, and keep them for the life of the compiler. Giving a
number touches neither the sizes nor the branches, and a declaration leaves the branches alone.
-/

namespace NetSpec

/-- What has been declared and asserted so far. -/
structure Compiler (α : Type) where
  config : Configuration
  inputSize : Nat
  outputSize : Nat
  /-- The names that are no components, by their numbers. -/
  others : List String
  branches : Branches α

/-- A handler of a compiler. -/
abbrev Compiler.M (α : Type) := EStateM (CompileError α) (Compiler α)

/-- Fail or go on with the state unchanged. -/
def Compiler.ofExcept {α β : Type} : Except (CompileError α) β → Compiler.M α β
  | .ok b => pure b
  | .error e => throw e

namespace Compiler

variable {α : Type}

/-- Nothing declared or asserted. Sizes that are not given start at zero. -/
def new (config : Configuration) : Compiler α :=
  ⟨config, config.inputSize.getD 0, config.outputSize.getD 0, [], .initial⟩

/-- The key of a name. A new name that is no component gets the next number. -/
def key (c : Compiler α) (name : String) : Key × Compiler α :=
  match c.config.component? name with
  | some key => (key, c)
  | none =>
    match c.others.idxOf? name with
    | some id => (.other id, c)
    | none => (.other c.others.length, { c with others := c.others ++ [name] })

/-- Let a size that is not given cover the component of a key. Sizes are exact numbers: the one that
covers the last index is `indexLimit`, which no machine word holds. A sum of machine words would
overflow there, and only there, and that is not modelled. -/
def cover (c : Compiler α) : Key → Compiler α
  | .input i =>
    if c.config.inputSize.isNone then { c with inputSize := max c.inputSize (i + 1) } else c
  | .output i =>
    if c.config.outputSize.isNone then { c with outputSize := max c.outputSize (i + 1) } else c
  | _ => c

/-- Declare a name. -/
def declare (c : Compiler α) (name : String) : Compiler α :=
  let (key, c) := c.key name
  c.cover key

/-- Assert the value of a term. -/
def assert (c : Compiler α) : Value α → Except (CompileError α) (Compiler α)
  | .atom a => .ok { c with branches := c.branches.assertAll [a] }
  | .conjunction rows => .ok { c with branches := c.branches.assertAll rows }
  | .disjunction alternatives => .ok { c with branches := c.branches.assertAny alternatives }
  | .expression _ => .error .notAConstraint

/-- Forget what has been asserted. -/
def reset (c : Compiler α) : Compiler α := { c with branches := .initial }

/-- The sizes and names that branches are assembled with. -/
def dimensions (c : Compiler α) : Dimensions := ⟨c.inputSize, c.outputSize, c.others⟩

/-- Finding the key of a name changes nothing, or it adds the name to those that have numbers. -/
theorem key_cases (c : Compiler α) (name : String) :
    (c.key name).2 = c ∨ (c.key name).2 = { c with others := c.others ++ [name] } := by
  unfold key
  split
  next => exact .inl rfl
  next =>
    split
    next => exact .inl rfl
    next => exact .inr rfl

section Key

variable (c : Compiler α) (name : String)

@[simp] theorem config_key : (c.key name).2.config = c.config := by
  obtain same | named := c.key_cases name
  · rw [same]
  · rw [named]

@[simp] theorem inputSize_key : (c.key name).2.inputSize = c.inputSize := by
  obtain same | named := c.key_cases name
  · rw [same]
  · rw [named]

@[simp] theorem outputSize_key : (c.key name).2.outputSize = c.outputSize := by
  obtain same | named := c.key_cases name
  · rw [same]
  · rw [named]

@[simp] theorem branches_key : (c.key name).2.branches = c.branches := by
  obtain same | named := c.key_cases name
  · rw [same]
  · rw [named]

end Key

/-- Covering a component changes nothing but the sizes. -/
theorem cover_eq (c : Compiler α) (key : Key) : c.cover key =
    { c with inputSize := (c.cover key).inputSize, outputSize := (c.cover key).outputSize } := by
  cases key with
  | input i =>
    simp only [cover]
    split
    next => rfl
    next => rfl
  | output i =>
    simp only [cover]
    split
    next => rfl
    next => rfl
  | other id => rfl
  | constant => rfl

@[simp] theorem config_cover (c : Compiler α) (key : Key) : (c.cover key).config = c.config := by
  rw [cover_eq]

@[simp] theorem others_cover (c : Compiler α) (key : Key) : (c.cover key).others = c.others := by
  rw [cover_eq]

@[simp] theorem branches_cover (c : Compiler α) (key : Key) :
    (c.cover key).branches = c.branches := by
  rw [cover_eq]

@[simp] theorem config_declare (c : Compiler α) (name : String) :
    (c.declare name).config = c.config := by
  simp [declare]

@[simp] theorem branches_declare (c : Compiler α) (name : String) :
    (c.declare name).branches = c.branches := by
  simp [declare]

variable [Scalar α]

/-- The handlers of a compiler. Commands leave no results behind. The branches are taken by
the end of a script, whether they can be assembled or not. -/
def handlers : Handlers (Compiler α) (CompileError α) (Value α) Unit (List (Property α)) where
  constant k := ofExcept (Value.ofConstant k)
  identifier name := modifyGet fun c =>
    let (key, c) := c.key name
    (.expression (.ofKey key), c)
  apply function args := ofExcept (Value.apply function args)
  declareConst symbol _ := do
    modify (·.declare symbol)
    return none
  assert value := do
    set (← ofExcept ((← get).assert value))
    return none
  script _ := do
    let c ← get
    set c.reset
    ofExcept (c.branches.properties c.dimensions)

/-- Evaluate a term. -/
def eval (term : Term) : Compiler.M α (Value α) := term.walk handlers

/-- Visit a command. -/
def command (command : Command) : Compiler.M α (Option Unit) := command.walk handlers

/-- Visit a script and take its properties. -/
def script (script : Script) : Compiler.M α (List (Property α)) := script.walk handlers

end Compiler

/-- The properties that a script states. -/
def Script.compile {α : Type} [Scalar α] (script : Script) (config : Configuration) :
    Except (CompileError α) (List (Property α)) :=
  match (Compiler.script script).run (.new config) with
  | .ok properties _ => .ok properties
  | .error e _ => .error e

end NetSpec
