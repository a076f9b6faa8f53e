import NetSpec.Constraint.LinearForm

/-!
# Why a script has no properties

Each cause carries what it is about. A constraint that cannot be assembled is carried as
such, and only the message writes it out.
-/

namespace NetSpec

/-- Why a script cannot be compiled. -/
inductive CompileError (α : Type) where
  | unsupportedFunction (function : String)
  | nonlinear
  | unexpectedVariable (name : String)
  | arity (function : String) (expected given : Nat)
  | expectedExpression (function : String)
  | expectedConstraint (function : String)
  | notAConstraint
  | unsupportedNesting (inner outer : String)
  | stringConstant (value : String)
  | mixedConstraint (atom : Atom α)
  | multipleInputs (atom : Atom α)
  | indexOutOfRange (index size : Nat)

namespace CompileError

def message : CompileError Float → String
  | unsupportedFunction f => "Function '" ++ f ++ "' is not supported by the legacy parser"
  | nonlinear => "nonlinear constraints are not supported"
  | unexpectedVariable name =>
    "unexpected variable type: '" ++ name ++ "' is neither an input nor an output"
  | arity f expected given =>
    "'" ++ f ++ "' expects " ++ expected.repr ++ " arguments, " ++ given.repr ++ " given"
  | expectedExpression f => "'" ++ f ++ "' expects arithmetic terms as arguments"
  | expectedConstraint f => "'" ++ f ++ "' expects constraints as arguments"
  | notAConstraint => "assertion is not a constraint"
  | unsupportedNesting inner outer => "'" ++ inner ++ "' cannot be nested under '" ++ outer ++ "'"
  | stringConstant s => "string constant \"" ++ s ++ "\" in a constraint"
  | mixedConstraint atom => "constraint `" ++ atom.text ++ "` mixes input and output variables"
  | multipleInputs atom => "constraint `" ++ atom.text ++ "` bounds more than one input variable"
  | indexOutOfRange index size =>
    "variable index " ++ index.repr ++ " is out of range (size " ++ size.repr ++ ")"

end CompileError

end NetSpec
