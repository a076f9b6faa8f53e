import NetSpec.Text.Quoted

/-!
# Tokens

A token keeps the text that it was read from, so that a reader of literals can choose how to
convert it. Three tokens always have the same text; the others hold theirs. The bars around
a quoted symbol are no part of its text, while a string keeps its quotes, and a number in
base sixteen or two keeps its mark.
-/

namespace NetSpec

/-- What a token is, without its text. -/
inductive TokenKind where
  | eof
  | openParen
  | closeParen
  | symbol
  | numeral
  | decimal
  | hexadecimal
  | binary
  | string
deriving DecidableEq, Repr

/-- The name of a kind in messages. -/
def TokenKind.text : TokenKind → String
  | .eof => "<end of file>"
  | .openParen => "("
  | .closeParen => ")"
  | .symbol => "SYMBOL"
  | .numeral => "NUMERAL"
  | .decimal => "DECIMAL"
  | .hexadecimal => "HEXADECIMAL"
  | .binary => "BINARY"
  | .string => "STRING"

/-- Literals are tokens that stand for a value by themselves. -/
def TokenKind.isLiteral : TokenKind → Bool
  | .numeral | .decimal | .hexadecimal | .binary | .string => true
  | .eof | .openParen | .closeParen | .symbol => false

/-- A token, or the end of the text. -/
inductive Token where
  | eof
  | openParen
  | closeParen
  | symbol (name : String)
  | numeral (digits : String)
  | decimal (number : String)
  | hexadecimal (number : String)
  | binary (number : String)
  | string (literal : String)
deriving DecidableEq, Repr

namespace Token

def kind : Token → TokenKind
  | eof => .eof
  | openParen => .openParen
  | closeParen => .closeParen
  | symbol _ => .symbol
  | numeral _ => .numeral
  | decimal _ => .decimal
  | hexadecimal _ => .hexadecimal
  | binary _ => .binary
  | string _ => .string

/-- The text that the token holds. -/
def text : Token → String
  | eof => ""
  | openParen => "("
  | closeParen => ")"
  | symbol s | numeral s | decimal s | hexadecimal s | binary s | string s => s

/-- The name of a symbol. -/
def symbol? : Token → Option String
  | symbol name => some name
  | _ => none

/-- The token in messages: a fixed token by its kind, another one with its text in quotes. -/
def describe (t : Token) : String :=
  match t with
  | eof | openParen | closeParen => t.kind.text
  | symbol s | numeral s | decimal s | hexadecimal s | binary s | string s =>
    t.kind.text ++ "(" ++ Text.quoted s ++ ")"

end Token

end NetSpec
