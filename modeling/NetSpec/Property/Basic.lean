import NetSpec.Property.Interval

/-!
# Properties of a network

A property says that for inputs in a box the outputs lie in one of some polytopes. A
polytope is a system of linear inequalities over the outputs, one row of coefficients and a
right-hand side for each. A region has one box and one polytope, and regions with equal
boxes make one property.
-/

namespace NetSpec

/-- One inequality: the outputs times the coefficients are at most the right-hand side. -/
structure Row (α : Type) where
  coefficients : List α
  rhs : α

/-- Inequalities over the outputs. -/
structure Polytope (α : Type) where
  rows : List (Row α)

/-- Inputs in a box with outputs in a polytope. -/
structure Region (α : Type) where
  box : Box α
  polytope : Polytope α

/-- For inputs in the box the outputs lie in one of the polytopes. -/
structure Property (α : Type) where
  box : Box α
  polytopes : List (Polytope α)

namespace Property

variable {α : Type} [Scalar α]

/-- Add a region to the property of its box, or open one at the end. -/
def insert (region : Region α) : List (Property α) → List (Property α)
  | [] => [⟨region.box, [region.polytope]⟩]
  | p :: ps =>
    if p.box == region.box then { p with polytopes := p.polytopes ++ [region.polytope] } :: ps
    else p :: insert region ps

/-- Join regions into properties, one for each box, in the order in which the boxes first
come. -/
def ofRegions (regions : List (Region α)) : List (Property α) :=
  regions.foldl (fun properties region => insert region properties) []

end Property

end NetSpec
