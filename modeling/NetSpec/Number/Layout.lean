import NetSpec.Number.Shortest

/-!
# Written numbers

A number is written by the shortest decimal that reads back as it, in one of two layouts.
Scripts write a real so that it cannot be taken for an integer and stays short: positionally
with at least one digit after the point between `0.0001` and `10 ^ 16`, and with an exponent
elsewhere. Messages always write the number out, and a whole number has no point there.
-/

namespace NetSpec

/-- How the digits of a number are laid out. -/
structure Layout where
  /-- The codes that are written without an exponent, from the first and below the second;
  without bounds all are. -/
  positionalCodes : Option (Nat × Nat)
  /-- A whole number keeps a point and a zero. -/
  keepsPoint : Bool

namespace Layout

/-- The layout of reals in scripts. -/
def literal : Layout where
  positionalCodes := some (Decimal.code ⟨1, -4⟩, Decimal.code ⟨1, 16⟩)
  keepsPoint := true

/-- The layout of numbers in messages. -/
def message : Layout where
  positionalCodes := none
  keepsPoint := false

/-- Zero and the codes within the bounds are written without an exponent. -/
def isPositional (layout : Layout) (code : Nat) : Bool :=
  match layout.positionalCodes with
  | none => true
  | some (first, stop) => code = 0 || (first ≤ code && code < stop)

/-- Digits with the point at its place, filled up by zeros. -/
def positional (layout : Layout) (d : Decimal) : List Char :=
  let digits := Nat.toDigits 10 d.digits
  if 0 ≤ d.exponent then
    digits ++ List.replicate d.exponent.toNat '0' ++ (if layout.keepsPoint then ['.', '0'] else [])
  else
    let places := (-d.exponent).toNat
    let padded := List.replicate (places + 1 - digits.length) '0' ++ digits
    padded.take (padded.length - places) ++ '.' :: padded.drop (padded.length - places)

/-- One digit before the point, and the power of ten behind the mark `e`. -/
def scientific (d : Decimal) : List Char :=
  let digits := Nat.toDigits 10 d.digits
  let exponent := d.exponent + ((digits.length - 1 : Nat) : Int)
  let places := digits.drop 1
  digits.take 1 ++ (if places.isEmpty then [] else '.' :: places) ++ 'e' :: exponent.repr.toList

/-- A magnitude. -/
def magnitude (layout : Layout) (code : Nat) : List Char :=
  if code = Binary64.infinityCode then ['i', 'n', 'f']
  else if layout.isPositional code then layout.positional (Decimal.shortest code)
  else scientific (Decimal.shortest code)

/-- A number; a NaN has no sign. -/
def chars (layout : Layout) (x : Float) : List Char :=
  if Binary64.infinityCode < Binary64.code x then ['N', 'a', 'N']
  else (if Binary64.isNegative x then ['-'] else []) ++ layout.magnitude (Binary64.code x)

/-- A number as a text. -/
def text (layout : Layout) (x : Float) : String := String.ofList (layout.chars x)

end Layout

end NetSpec
