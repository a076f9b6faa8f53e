/-!
# Scripts

A specification is a script: declarations of constants and assertions of terms, in order.
A term applies a function to terms, or is a literal constant, or names something declared or
built in. The tree is what a script says, and nothing in it is checked here.

Scripts are compared with `==`, which compares reals as numbers: the two zeros are equal,
and a NaN differs from itself.
-/

namespace NetSpec

/-- A literal: an integer of 64 bits, a binary64 real or a text. -/
inductive Constant where
  | int (value : Int64)
  | real (value : Float)
  | string (value : String)

/-- A term over named functions and constants. -/
inductive Term where
  | apply (function : String) (args : List Term)
  | constant (value : Constant)
  | identifier (name : String)

/-- One command of a script. -/
inductive Command where
  | declareConst (symbol sort : String)
  | assert (term : Term)

/-- The commands of a specification, in order. -/
structure Script where
  commands : List Command

/-- Reals are equal as numbers. -/
def Constant.beq : Constant → Constant → Bool
  | .int a, .int b => a == b
  | .real a, .real b => a == b
  | .string a, .string b => a == b
  | _, _ => false

instance : BEq Constant := ⟨Constant.beq⟩

mutual

/-- Terms are equal if they have the same shape and equal leaves. -/
def Term.beq : Term → Term → Bool
  | .apply f ss, .apply g ts => f == g && Term.beqArgs ss ts
  | .constant a, .constant b => a == b
  | .identifier a, .identifier b => a == b
  | _, _ => false

/-- Arguments are equal if there are as many, equal in order. -/
def Term.beqArgs : List Term → List Term → Bool
  | [], [] => true
  | s :: ss, t :: ts => Term.beq s t && Term.beqArgs ss ts
  | _, _ => false

end

instance : BEq Term := ⟨Term.beq⟩

def Command.beq : Command → Command → Bool
  | .declareConst a s, .declareConst b t => a == b && s == t
  | .assert s, .assert t => s == t
  | _, _ => false

instance : BEq Command := ⟨Command.beq⟩

instance : BEq Script := ⟨fun a b => a.commands == b.commands⟩

/-- A script without commands. -/
def Script.isEmpty (s : Script) : Bool := s.commands.isEmpty

end NetSpec
