import NetSpec.Number.Decimal
import NetSpec.Script.Basic
import NetSpec.Script.Scope
import NetSpec.Script.SyntaxError

/-!
# What a symbol means

A symbol in a term names something in scope. A symbol that begins with a minus is a number
if it reads as one; otherwise it is the opposite of what the rest of it names.
-/

namespace NetSpec

/-- A name that reads like the exponent of a number. -/
def looksLikeExponent (name : String) : Bool :=
  match name.toList with
  | 'e' :: c :: cs => (c :: cs).all fun c => c.isDigit || c = '+' || c = '-'
  | _ => false

/-- A number after its sign begins with a digit or a point. -/
def startsNumber : List Char → Bool
  | c :: _ => c.isDigit || c = '.'
  | [] => false

namespace Scope

/-- A name in scope, or why it is none. -/
def resolve (scope : Scope) (name : String) : Except SyntaxError String :=
  if scope.contains name then .ok name
  else if looksLikeExponent name then .error (.exponentNotation name)
  else .error (.undeclaredIdentifier name)

/-- The term that a symbol alone stands for. -/
def interpret (scope : Scope) (name : String) : Except SyntaxError Term :=
  match name.toList with
  | '-' :: rest =>
    match if startsNumber rest then Binary64.ofText? name else none with
    | some x => .ok (.constant (.real x))
    | none => do
      let minus ← scope.resolve "-"
      let operand ← scope.resolve (String.ofList rest)
      return .apply minus [.identifier operand]
  | _ => (scope.resolve name).map .identifier

end Scope

end NetSpec
