import NetSpec.Number.Decimal
import NetSpec.Script.Basic
import NetSpec.Token.Basic

/-!
# The values of literals

Numerals are integers as long as they fit 64 bits with a sign, and reals beyond. Literals in
base sixteen and two are integers and have to fit. A decimal is a real whenever its text is a
number; a token may have the shape of a decimal without being one, as `5e` has. A string
loses its quotes, and of two quotes inside it one is left.
-/

namespace NetSpec

/-- The first natural number that is no integer constant. -/
def integerLimit : Nat := 1 <<< 63

/-- The value of a digit in base sixteen, in either case. -/
def hexDigitValue (c : Char) : Nat :=
  if c.isDigit then c.toNat - 48 else if 'a' ≤ c then c.toNat - 87 else c.toNat - 55

/-- The value of digits in base sixteen. -/
def hexValue (cs : List Char) : Nat :=
  cs.foldl (fun n c => 16 * n + hexDigitValue c) 0

/-- The value of digits in base two. -/
def bitsValue (cs : List Char) : Nat := Nat.ofDigitChars 2 cs 0

/-- Of two quotes in a row one is left. -/
def singleQuotes : List Char → List Char
  | '"' :: '"' :: cs => '"' :: singleQuotes cs
  | c :: cs => c :: singleQuotes cs
  | [] => []

namespace Constant

/-- An integer constant, if the number fits. -/
def ofNat? (n : Nat) : Option Constant :=
  if n < integerLimit then some (.int (Int64.ofNat n)) else none

/-- An integer constant by its digits behind the two characters of a mark. -/
def ofMarked? (value : List Char → Nat) (text : String) : Option Constant :=
  match text.toList.drop 2 with
  | [] => none
  | digits => ofNat? (value digits)

/-- The value of a literal. -/
def ofToken? : Token → Option Constant
  | .numeral text =>
    match (Decimal.digits? text.toList).bind ofNat? with
    | some c => some c
    | none => (Binary64.ofText? text).map .real
  | .decimal text => (Binary64.ofText? text).map .real
  | .hexadecimal text => ofMarked? hexValue text
  | .binary text => ofMarked? bitsValue text
  | .string text => some (.string (String.ofList (singleQuotes (text.toList.drop 1).dropLast)))
  | _ => none

end Constant

end NetSpec
