import NetSpec.Number.Binary64

/-!
# Numbers that coefficients are made of

Everything between a script and its properties is written for any type of numbers with the
operations of `Scalar`. Programs run it over binary64 numbers, whose operations round. Over
numbers with exact operations the same definitions say what is computed apart from rounding.

Equality and order are tests, not propositions: binary64 has numbers that are equal without
being the same, and one that is equal to nothing, itself included. It also has two numbers
that stand for no number but for the lack of a bound, on either side; exact numbers have
none of these.
-/

namespace NetSpec

/-- Numbers with the operations that compiling needs. -/
class Scalar (α : Type) extends Add α, Neg α, Mul α, Div α, BEq α where
  zero : α
  one : α
  /-- A test for the strict order. -/
  less : α → α → Bool
  /-- Below every number that can be compared. -/
  isBottom : α → Bool
  /-- Above every number that can be compared. -/
  isTop : α → Bool
  /-- The number of an integer literal. -/
  ofInt : Int → α
  /-- The number of a real literal. -/
  ofReal : Float → α

/-- Binary64 numbers round to nearest. -/
instance : Scalar Float where
  zero := 0.0
  one := 1.0
  less a b := a < b
  isBottom x := x == Binary64.toFloat true Binary64.infinityCode
  isTop x := x == Binary64.toFloat false Binary64.infinityCode
  ofInt := Float.ofInt
  ofReal x := x

end NetSpec
