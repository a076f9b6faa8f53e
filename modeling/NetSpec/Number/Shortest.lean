import NetSpec.Number.Decimal

/-!
# The shortest decimal of a binary64 magnitude

Among the decimals that read back as a given magnitude, `Decimal.shortest` takes one with the
fewest digits, and of those the nearest. On the grid of decimals with a given number of
digits only the two neighbours of the magnitude matter, one on each side: if any point of the
grid reads back, one of these does. The grids are tried from the coarsest on, and the
magnitude itself, which has a finite decimal expansion, ends the search.
-/

namespace NetSpec.Decimal

/-- Drop the zeros at the end of the digits; zero is left with no power of ten. -/
def trim (d : Decimal) : Decimal :=
  if h : d.digits = 0 then ⟨0, 0⟩
  else if d.digits % 10 = 0 then trim ⟨d.digits / 10, d.exponent + 1⟩
  else d
termination_by d.digits
decreasing_by exact Nat.div_lt_self (Nat.pos_of_ne_zero h) (by decide)

/-- The decimals next to `num / den` among the multiples of `10 ^ exponent`, the nearer one
first; a tie puts the upper one first. -/
def neighbours (num den : Nat) (exponent : Int) : List Decimal :=
  let num := num * tenPow (-exponent).toNat
  let den := den * tenPow exponent.toNat
  let below : Decimal := ⟨num / den, exponent⟩
  let above : Decimal := ⟨num / den + 1, exponent⟩
  if 2 * (num % den) < den then [below, above] else [above, below]

/-- The number of digits that `num / den` has before the point; it is negative or zero where
zeros follow the point. -/
def wholeDigits (num den : Nat) : Int :=
  if den ≤ num then (Nat.toDigits 10 (num / den)).length
  else 1 - ((Nat.toDigits 10 ((den - 1) / num)).length : Int)

/-- The magnitude of a code as a decimal, digit for digit. -/
def exact (code : Nat) : Decimal :=
  ⟨Binary64.units code * tenPow 1074 / Binary64.unitsInOne, -1074⟩

/-- The fewest digits that read back as the code, and of those the nearest to its magnitude. -/
def shortest (code : Nat) : Decimal :=
  let num := Binary64.units code
  let den := Binary64.unitsInOne
  let size := wholeDigits num den
  let candidates := (List.range 17).flatMap fun n => neighbours num den (size - (n + 1 : Nat))
  trim ((candidates.find? fun d => d.code = code).getD (exact code))

end NetSpec.Decimal
