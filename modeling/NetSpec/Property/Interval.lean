import NetSpec.Constraint.Scalar

/-!
# Intervals and boxes

The values of one input form an interval, and a box has an interval for each input. An
interval may lack a bound on either side, so its ends are numbers or one of two ends that lie
below and above all numbers. `End.less` is never true of a number that is not equal to
itself, and bounds are only taken into account where they are less than what they replace.
So an end is never such a number, and a box is equal to itself.
-/

namespace NetSpec

/-- An end of an interval. -/
inductive End (α : Type) where
  | bottom
  | number (value : α)
  | top

variable {α : Type} [Scalar α]

namespace End

/-- The end at a number. -/
def ofScalar (x : α) : End α :=
  if Scalar.isBottom x then bottom else if Scalar.isTop x then top else number x

/-- The strict order of ends. A number lies between the outer ends if it equals itself. -/
def less : End α → End α → Bool
  | bottom, bottom => false
  | bottom, number b => b == b
  | bottom, top => true
  | number a, number b => Scalar.less a b
  | number a, top => a == a
  | _, _ => false

def beq : End α → End α → Bool
  | bottom, bottom => true
  | number a, number b => a == b
  | top, top => true
  | _, _ => false

instance : BEq (End α) := ⟨beq⟩

end End

/-- The values of an input from `low` to `high`. -/
structure Interval (α : Type) where
  low : End α
  high : End α

namespace Interval

instance : BEq (Interval α) := ⟨fun a b => a.low == b.low && a.high == b.high⟩

/-- No bounds. -/
def unbounded : Interval α := ⟨.bottom, .top⟩

/-- The ends are in the wrong order. -/
def isEmpty (i : Interval α) : Bool := i.high.less i.low

/-- Take an upper bound into account. -/
def capHigh (i : Interval α) (bound : End α) : Interval α :=
  if bound.less i.high then { i with high := bound } else i

/-- Take a lower bound into account. -/
def capLow (i : Interval α) (bound : End α) : Interval α :=
  if i.low.less bound then { i with low := bound } else i

/-- The value at which the constraint `c * x + k ≤ 0` bounds `x`. -/
def bound (c k : α) : α :=
  if k == Scalar.zero then Scalar.zero else -k / c

/-- Take the constraint `c * x + k ≤ 0` into account. The sign of `c` says on which side it
bounds `x`. -/
def restrict (i : Interval α) (c k : α) : Interval α :=
  if Scalar.less Scalar.zero c then i.capHigh (.ofScalar (bound c k))
  else i.capLow (.ofScalar (bound c k))

end Interval

/-- An interval for each input. -/
structure Box (α : Type) where
  intervals : List (Interval α)

namespace Box

instance : BEq (Box α) := ⟨fun a b => a.intervals == b.intervals⟩

/-- How many inputs there are. -/
def size (box : Box α) : Nat := box.intervals.length

/-- No bounds on any of `size` inputs. -/
def unbounded (size : Nat) : Box α := ⟨List.replicate size .unbounded⟩

/-- Take the constraint `c * x + k ≤ 0` on one input into account. -/
def restrict (box : Box α) (index : Nat) (c k : α) : Box α :=
  ⟨box.intervals.modify index (·.restrict c k)⟩

omit [Scalar α] in
@[simp] theorem size_unbounded (n : Nat) : (unbounded n : Box α).size = n :=
  List.length_replicate

@[simp] theorem size_restrict (box : Box α) (index : Nat) (c k : α) :
    (box.restrict index c k).size = box.size := by
  simp [restrict, size]

end Box

end NetSpec
