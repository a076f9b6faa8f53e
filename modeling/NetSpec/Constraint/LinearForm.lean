import NetSpec.Constraint.Scalar
import NetSpec.Number.Layout

/-!
# Linear forms

A linear form is a sum of variables with coefficients, and a constant, which is the
coefficient of a key of its own. The terms stand in the order of their keys, with one term
a key. `LinearForm.addTerm` is the only operation that joins coefficients, and it drops a
term whose coefficient becomes zero. So a variable that cancels out is absent.
-/

namespace NetSpec

/-- What a coefficient belongs to: the constant, a component of the input or output vector,
or another variable by its number. -/
inductive Key where
  | constant
  | input (index : Nat)
  | output (index : Nat)
  | other (id : Nat)
deriving DecidableEq, Repr

namespace Key

/-- Keys are ordered by their role, then by their index. -/
def rank : Key → Nat × Nat
  | constant => (0, 0)
  | input i => (1, i)
  | output i => (2, i)
  | other i => (3, i)

instance : LT Key :=
  ⟨fun a b => a.rank.1 < b.rank.1 ∨ a.rank.1 = b.rank.1 ∧ a.rank.2 < b.rank.2⟩

instance (a b : Key) : Decidable (a < b) :=
  inferInstanceAs (Decidable (_ ∨ _))

def text : Key → String
  | constant => "1"
  | input i => "x" ++ i.repr
  | output i => "y" ++ i.repr
  | other i => "v" ++ i.repr

end Key

/-- Coefficients in the order of their keys. -/
structure LinearForm (α : Type) where
  terms : List (Key × α)

namespace LinearForm

variable {α : Type}

/-- The sum of nothing. -/
def zero : LinearForm α := ⟨[]⟩

/-- The coefficient of a key, if there is a term for it. -/
def find? (form : LinearForm α) (key : Key) : Option α :=
  form.terms.lookup key

/-- The terms of variables, without the constant. -/
def variableTerms (form : LinearForm α) : List (Key × α) :=
  form.terms.filter fun term => term.1 ≠ .constant

/-- No variable has a term. -/
def isConstant (form : LinearForm α) : Bool := form.variableTerms.isEmpty

variable [Scalar α]

instance : BEq (LinearForm α) := ⟨fun a b => a.terms == b.terms⟩

/-- A term in front, unless its coefficient is zero. -/
def consNonzero (key : Key) (c : α) (terms : List (Key × α)) :
    List (Key × α) :=
  if c == Scalar.zero then terms else (key, c) :: terms

/-- Add a coefficient to the term of a key, at its place in the order. -/
def insert (key : Key) (value : α) : List (Key × α) → List (Key × α)
  | [] => consNonzero key (Scalar.zero + value) []
  | (k, c) :: terms =>
    if key = k then consNonzero key (c + value) terms
    else if key < k then consNonzero key (Scalar.zero + value) ((k, c) :: terms)
    else (k, c) :: insert key value terms

/-- Add a multiple of a key. -/
def addTerm (form : LinearForm α) (key : Key) (value : α) : LinearForm α :=
  ⟨insert key value form.terms⟩

/-- A number as a form. -/
def ofScalar (value : α) : LinearForm α := zero.addTerm .constant value

/-- A variable as a form. -/
def ofKey (key : Key) : LinearForm α := zero.addTerm key Scalar.one

/-- The coefficient of a key, zero if there is no term for it. -/
def coefficient (form : LinearForm α) (key : Key) : α :=
  (form.find? key).getD Scalar.zero

def constantTerm (form : LinearForm α) : α := form.coefficient .constant

instance : Add (LinearForm α) where
  add a b := b.terms.foldl (fun sum (key, c) => sum.addTerm key c) a

instance : Sub (LinearForm α) where
  sub a b := b.terms.foldl (fun sum (key, c) => sum.addTerm key (-c)) a

instance : Neg (LinearForm α) where
  neg a := ⟨a.terms.map fun (key, c) => (key, -c)⟩

/-- Multiply all coefficients. The zero form is the multiple by zero. -/
def scale (form : LinearForm α) (factor : α) : LinearForm α :=
  if factor == Scalar.zero then zero else ⟨form.terms.map fun (key, c) => (key, c * factor)⟩

/-- One term in messages; the constant stands without its key. -/
def termText : Key × Float → String
  | (.constant, c) => Layout.message.text c
  | (key, c) => Layout.message.text c ++ "*" ++ key.text

/-- A form in messages. -/
def text (form : LinearForm Float) : String :=
  if form.terms.isEmpty then "0" else " + ".intercalate (form.terms.map termText)

end LinearForm

/-- The constraint that a form is at most zero. -/
structure Atom (α : Type) where
  form : LinearForm α

namespace Atom

variable {α : Type} [Scalar α]

instance : BEq (Atom α) := ⟨fun a b => a.form == b.form⟩

/-- The constraint `a ≤ b`. -/
def le (a b : LinearForm α) : Atom α := ⟨a - b⟩

/-- The constraint `a ≥ b`. -/
def ge (a b : LinearForm α) : Atom α := ⟨b - a⟩

/-- The right-hand side once the variables stand alone on the left. -/
def rhs (atom : Atom α) : α :=
  let k := atom.form.constantTerm
  if k == Scalar.zero then Scalar.zero else -k

/-- A constraint in messages. -/
def text (atom : Atom Float) : String := atom.form.text ++ " <= 0"

end Atom

end NetSpec
