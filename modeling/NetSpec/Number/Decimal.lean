import NetSpec.Number.Binary64

/-!
# Decimal numbers

A `Decimal` is a natural number times a power of ten. `Decimal.code` rounds it to the nearest
binary64 magnitude. Powers of ten far outside the range of binary64 are settled by their size,
so a long exponent costs no more than a short one.

The grammar of a written number is an optional sign, then either one of the words `inf`,
`infinity` and `nan` in any case, or digits with an optional point and an optional exponent.
There is a digit beside the point, and there is a digit in an exponent.
-/

namespace NetSpec

/-- `digits * 10 ^ exponent`. -/
structure Decimal where
  digits : Nat
  exponent : Int
deriving DecidableEq, Repr

namespace Decimal

/-- Powers of ten. -/
def tenPow : Nat → Nat
  | 0 => 1
  | n + 1 => 10 * tenPow n

/-- The code of the nearest binary64 magnitude. -/
def code (d : Decimal) : Nat :=
  if d.digits = 0 then 0
  else if 400 < d.exponent then Binary64.infinityCode
  else if d.exponent < -(400 + d.digits.log2 : Int) then 0
  else Binary64.nearest (d.digits * tenPow d.exponent.toNat) (tenPow (-d.exponent).toNat)

/-- The value of decimal digits. -/
def digitsValue (cs : List Char) : Nat := Nat.ofDigitChars 10 cs 0

/-- One or more decimal digits. -/
def digits? (cs : List Char) : Option Nat :=
  if cs.isEmpty || !cs.all Char.isDigit then none else some (digitsValue cs)

/-- What may follow the digits of a number: nothing, or an exponent. -/
def exponent? : List Char → Option Int
  | [] => some 0
  | mark :: cs =>
    if mark = 'e' ∨ mark = 'E' then
      match cs with
      | '+' :: cs => (digits? cs).map fun n => (n : Int)
      | '-' :: cs => (digits? cs).map fun n => -(n : Int)
      | cs => (digits? cs).map fun n => (n : Int)
    else none

/-- The digits after a point, if there is one, and what follows. -/
def fraction : List Char → List Char × List Char
  | '.' :: cs => (cs.takeWhile Char.isDigit, cs.dropWhile Char.isDigit)
  | cs => ([], cs)

/-- A number without a sign. -/
def ofChars? (cs : List Char) : Option Decimal :=
  let whole := cs.takeWhile Char.isDigit
  let (places, rest) := fraction (cs.dropWhile Char.isDigit)
  if whole.isEmpty && places.isEmpty then none
  else (exponent? rest).map fun e => ⟨digitsValue (whole ++ places), e - places.length⟩

end Decimal

namespace Binary64

/-- A magnitude written as a word or as a decimal number. -/
def magnitude? (negative : Bool) (cs : List Char) : Option Float :=
  let word := cs.map Char.toLower
  if word = ['i', 'n', 'f'] ∨ word = ['i', 'n', 'f', 'i', 'n', 'i', 't', 'y'] then
    some (toFloat negative infinityCode)
  else if word = ['n', 'a', 'n'] then some (0.0 / 0.0)
  else (Decimal.ofChars? cs).map fun d => toFloat negative d.code

/-- The number that a text writes, rounded to the nearest binary64 number. -/
def ofChars? : List Char → Option Float
  | '+' :: cs => magnitude? false cs
  | '-' :: cs => magnitude? true cs
  | cs => magnitude? false cs

/-- The number that a text writes. -/
def ofText? (s : String) : Option Float := ofChars? s.toList

end Binary64

end NetSpec
