/-!
# Magnitudes of binary64 numbers

Without its sign, a binary64 number that is not a NaN is one of `infinityCode + 1` codes, and
a larger code stands for a larger magnitude. A finite code stands for a natural number of
units, the unit being `2 ^ -1074`: its last 52 bits and a leading one, shifted by the upper
bits less one. The first two blocks of codes are not shifted, and only the first block lacks
the leading one.

`nearest` finds the code whose magnitude is closest to a quotient; a half goes to the even
code, and what would need a larger code than the last goes to infinity.
-/

namespace NetSpec.Binary64

/-- Codes come in blocks of this size, within which the bits are shifted alike. -/
def blockSize : Nat := 1 <<< 52

/-- The weight of the sign in the bits of a number. -/
def signWeight : Nat := 1 <<< 63

/-- How many units there are in one. -/
def unitsInOne : Nat := 1 <<< 1074

/-- The code of an infinite magnitude; smaller codes are finite. -/
def infinityCode : Nat := 2047 * blockSize

/-- How far the bits of a code are shifted. -/
def shift (code : Nat) : Nat := code / blockSize - 1

/-- The bits of a code, with the leading one. -/
def mantissa (code : Nat) : Nat := code - shift code * blockSize

/-- The magnitude of a finite code, counted in units of `2 ^ -1074`. -/
def units (code : Nat) : Nat := mantissa code <<< shift code

/-- The natural number nearest to a quotient; a half goes to the even number. -/
def roundHalfEven (num den : Nat) : Nat :=
  let quotient := num / den
  let twice := 2 * (num % den)
  if twice < den then quotient
  else if den < twice then quotient + 1
  else quotient + quotient % 2

/-- The code whose magnitude is nearest to a quotient of natural numbers. -/
def nearest (num den : Nat) : Nat :=
  let scaled := num * unitsInOne
  let shift := (scaled / den).log2 - 52
  min infinityCode (shift * blockSize + roundHalfEven scaled (den <<< shift))

/-- The number of a sign and a code. -/
def toFloat (negative : Bool) (code : Nat) : Float :=
  Float.ofBits (UInt64.ofNat (if negative then signWeight + code else code))

/-- The code of a number, without its sign. -/
def code (x : Float) : Nat := x.toBits.toNat % signWeight

/-- The sign bit, which zeros have too. -/
def isNegative (x : Float) : Bool := signWeight ≤ x.toBits.toNat

/-- Neither infinite nor a NaN. -/
def isFinite (x : Float) : Bool := code x < infinityCode

end NetSpec.Binary64
