import NetSpec.Constraint.LinearForm
import NetSpec.Number.Decimal

/-!
# Which names are inputs and outputs

The component `i` of a vector is named by the name of the vector, an underscore and the
index. Vectors are called `X` and `Y` unless a configuration says otherwise. Their sizes may
be given; otherwise the declarations determine them.
-/

namespace NetSpec

/-- The first number that is no index. -/
def indexLimit : Nat := 1 <<< 64

/-- The number that digits with an optional plus write, if it is an index. -/
def index? (cs : List Char) : Option Nat :=
  let digits := match cs with
    | '+' :: digits => digits
    | digits => digits
  (Decimal.digits? digits).filter (· < indexLimit)

/-- The index of a component of the vector with a given name. -/
def indexIn? (vector name : String) : Option Nat :=
  let stem := vector.toList ++ ['_']
  if stem.isPrefixOf name.toList then index? (name.toList.drop stem.length) else none

/-- The names of the vectors, and their sizes where they are given. -/
structure Configuration where
  inputName : String := "X"
  outputName : String := "Y"
  inputSize : Option Nat := none
  outputSize : Option Nat := none
deriving DecidableEq, Repr

namespace Configuration

/-- The component that a name stands for. The input vector comes first. -/
def component? (config : Configuration) (name : String) : Option Key :=
  match indexIn? config.inputName name with
  | some i => some (.input i)
  | none => (indexIn? config.outputName name).map .output

end Configuration

end NetSpec
