import NetSpec.Token.Scan

/-!
# Why a text is no script

Each cause carries what the message shows: the token met, or the name as it was looked up.
-/

namespace NetSpec

/-- Why tokens cannot be read as a script. -/
inductive SyntaxError where
  | lexical (error : LexicalError)
  | unexpectedToken (token : Token)
  | expected (kind : TokenKind) (token : Token)
  | unknownCommand (name : String)
  | undeclaredSort (name : String)
  | undeclaredIdentifier (name : String)
  | exponentNotation (name : String)
  | invalidLiteral (token : Token)
deriving DecidableEq, Repr

namespace SyntaxError

def message : SyntaxError → String
  | lexical e => e.message
  | unexpectedToken t => "unexpected token: " ++ t.describe
  | expected kind t => "expected `" ++ kind.text ++ "', got " ++ t.describe
  | unknownCommand name => "unknown command: " ++ Text.quoted name
  | undeclaredSort name => "undeclared sort: " ++ Text.quoted name
  | undeclaredIdentifier name => "undeclared identifier: " ++ Text.quoted name
  | exponentNotation name =>
    "undeclared identifier: " ++ Text.quoted name ++
      "\n\tit looks like exponential notation, which is not SMT-LIB compliant" ++
      "\n\ttry turning off strict mode"
  | invalidLiteral t => "invalid literal " ++ t.describe

end SyntaxError

end NetSpec
