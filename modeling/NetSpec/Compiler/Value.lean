import NetSpec.Constraint.Branches
import NetSpec.Property.CompileError
import NetSpec.Script.Basic

/-!
# Values of terms

A term is either an arithmetic expression, which is a linear form, or a constraint: a
comparison, a conjunction or a disjunction. Conjunctions and disjunctions are flat, so an
operator that joins constraints joins their rows or alternatives.
-/

namespace NetSpec

/-- What a term is worth. -/
inductive Value (α : Type) where
  | expression (form : LinearForm α)
  | atom (atom : Atom α)
  | conjunction (rows : Conjunction α)
  | disjunction (alternatives : Disjunction α)

/-- The functions that a term may apply. -/
inductive Operator where
  | add
  | subtract
  | multiply
  | atMost
  | atLeast
  | all
  | any
deriving DecidableEq, Repr

namespace Operator

def name : Operator → String
  | add => "+"
  | subtract => "-"
  | multiply => "*"
  | atMost => "<="
  | atLeast => ">="
  | all => "and"
  | any => "or"

/-- The operator of a name. -/
def ofName? (name : String) : Option Operator :=
  [add, subtract, multiply, atMost, atLeast, all, any].find? (·.name == name)

end Operator

variable {α : Type}

namespace Value

/-- The form of an expression; `function` is the one that asks. -/
def toForm (function : String) : Value α → Except (CompileError α) (LinearForm α)
  | expression form => .ok form
  | _ => .error (.expectedExpression function)

/-- The rows that a value adds to a conjunction. A disjunction has to have one alternative. -/
def toRows : Value α → Except (CompileError α) (Conjunction α)
  | atom a => .ok [a]
  | conjunction rows => .ok rows
  | disjunction [rows] => .ok rows
  | disjunction _ => .error (.unsupportedNesting Operator.any.name Operator.all.name)
  | expression _ => .error (.expectedConstraint Operator.all.name)

/-- The alternatives that a value adds to a disjunction. -/
def toAlternatives : Value α → Except (CompileError α) (Disjunction α)
  | atom a => .ok [[a]]
  | conjunction rows => .ok [rows]
  | disjunction alternatives => .ok alternatives
  | expression _ => .error (.expectedConstraint Operator.any.name)

end Value

variable [Scalar α]

namespace LinearForm

def sum (forms : List (LinearForm α)) : LinearForm α :=
  forms.foldl (· + ·) zero

/-- The first form less the others; a single form is negated. -/
def difference : List (LinearForm α) → LinearForm α
  | [] => -zero
  | [form] => -form
  | form :: forms => forms.foldl (· - ·) form

/-- The product of the constants among the forms. -/
def factor (forms : List (LinearForm α)) : α :=
  (forms.filter (·.isConstant)).foldl (fun product form => product * form.constantTerm) Scalar.one

/-- The product of forms, of which at most one has variables. -/
def product (forms : List (LinearForm α)) : Except (CompileError α) (LinearForm α) :=
  match forms.filter (!·.isConstant) with
  | [] => .ok (ofScalar (factor forms))
  | [form] => .ok (form.scale (factor forms))
  | _ => .error .nonlinear

end LinearForm

/-- Compare two expressions. What is no expression is found before a wrong number of
arguments. -/
def Operator.compare (op : Operator) (relation : LinearForm α → LinearForm α → Atom α)
    (args : List (Value α)) : Except (CompileError α) (Value α) := do
  match ← args.mapM (·.toForm op.name) with
  | [a, b] => return .atom (relation a b)
  | forms => throw (.arity op.name 2 forms.length)

/-- Apply an operator to values. -/
def Operator.apply (op : Operator) (args : List (Value α)) :
    Except (CompileError α) (Value α) :=
  match op with
  | add => return .expression (.sum (← args.mapM (·.toForm op.name)))
  | subtract => return .expression (.difference (← args.mapM (·.toForm op.name)))
  | multiply => return .expression (← LinearForm.product (← args.mapM (·.toForm op.name)))
  | atMost => op.compare .le args
  | atLeast => op.compare .ge args
  | all => return .conjunction (← args.mapM (·.toRows)).flatten
  | any => return .disjunction (← args.mapM (·.toAlternatives)).flatten

/-- Apply a function by its name. -/
def Value.apply (function : String) (args : List (Value α)) :
    Except (CompileError α) (Value α) :=
  match Operator.ofName? function with
  | some op => op.apply args
  | none => .error (.unsupportedFunction function)

/-- The value of a literal. -/
def Value.ofConstant : Constant → Except (CompileError α) (Value α)
  | .int n => .ok (.expression (.ofScalar (Scalar.ofInt n.toInt)))
  | .real x => .ok (.expression (.ofScalar (Scalar.ofReal x)))
  | .string s => .error (.stringConstant s)

end NetSpec
