import NetSpec.Constraint.Branches
import NetSpec.Property.Basic
import NetSpec.Property.CompileError

/-!
# The region of a branch

Each constraint of a branch plays a `Role` that depends on its variables alone. One on a
single input bounds the box, one on outputs is a row of the polytope, and one without
variables either always holds or never. Any other constraint has no place in a region.
All constraints of a branch have to play a role, also where one of them never holds.
-/

namespace NetSpec

namespace Key

/-- The number of a variable that is neither an input nor an output. -/
def otherId? : Key → Option Nat
  | other id => some id
  | _ => none

def inputIndex? : Key → Option Nat
  | input i => some i
  | _ => none

def outputIndex? : Key → Option Nat
  | output i => some i
  | _ => none

end Key

/-- The sizes of the two vectors, and the names of the other variables by their numbers. -/
structure Dimensions where
  inputSize : Nat
  outputSize : Nat
  others : List String

/-- The name of another variable, or its key if the number has no name. -/
def Dimensions.nameOf (dims : Dimensions) (id : Nat) : String :=
  (dims.others[id]?).getD (Key.other id).text

/-- What a constraint is for its branch: a constant that should not be positive, a bound
`c * x + k ≤ 0` on an input, or a row of the polytope. -/
inductive Role (α : Type) where
  | constant (k : α)
  | bound (index : Nat) (c k : α)
  | row (row : Row α)

variable {α : Type} [Scalar α]

namespace Atom

/-- The coefficients of all outputs, and the right-hand side. -/
def toRow (atom : Atom α) (outputSize : Nat) : Row α :=
  ⟨(List.range outputSize).map fun i => atom.form.coefficient (.output i), atom.rhs⟩

/-- The role of a constraint, or why it has none. -/
def role (atom : Atom α) (dims : Dimensions) : Except (CompileError α) (Role α) :=
  let keys := atom.form.variableTerms.map (·.1)
  match keys.findSome? (·.otherId?) with
  | some id => .error (.unexpectedVariable (dims.nameOf id))
  | none =>
    match keys.filterMap (·.inputIndex?), keys.filterMap (·.outputIndex?) with
    | [], [] => .ok (.constant atom.form.constantTerm)
    | [i], [] =>
      if i < dims.inputSize then
        .ok (.bound i (atom.form.coefficient (.input i)) atom.form.constantTerm)
      else .error (.indexOutOfRange i dims.inputSize)
    | [], outputs =>
      match outputs.find? (dims.outputSize ≤ ·) with
      | some i => .error (.indexOutOfRange i dims.outputSize)
      | none => .ok (.row (atom.toRow dims.outputSize))
    | _, [] => .error (.multipleInputs atom)
    | _, _ => .error (.mixedConstraint atom)

end Atom

namespace Role

/-- A positive constant is never at most zero. -/
def isContradiction : Role α → Bool
  | constant k => Scalar.less Scalar.zero k
  | _ => false

/-- A bound restricts the box. -/
def restrict (box : Box α) : Role α → Box α
  | bound i c k => box.restrict i c k
  | _ => box

/-- The row of the polytope, if it is one. -/
def row? : Role α → Option (Row α)
  | row r => some r
  | _ => none

end Role

/-- The region of a branch; a branch that never holds has none. -/
def Region.ofRows? (rows : Conjunction α) (dims : Dimensions) :
    Except (CompileError α) (Option (Region α)) := do
  let roles ← rows.mapM (·.role dims)
  if roles.any (·.isContradiction) then return none
  else return some ⟨roles.foldl Role.restrict (.unbounded dims.inputSize),
    ⟨roles.filterMap (·.row?)⟩⟩

/-- The properties of all branches. -/
def Branches.properties (branches : Branches α) (dims : Dimensions) :
    Except (CompileError α) (List (Property α)) := do
  let regions ← branches.rows.mapM (Region.ofRows? · dims)
  return Property.ofRegions (regions.filterMap id)

end NetSpec
