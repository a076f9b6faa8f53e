import NetSpec.Text.Hidden

/-!
# Quoted texts

Messages show a text between double quotes on one line. The quote, the backslash and the
usual white space characters get a backslash and a letter, and a character that would not
show itself is written by its code point.
-/

namespace NetSpec.Text

/-- The digits of a code point in base sixteen, in lower case and without padding. -/
def hexDigits (n : Nat) : List Char := Nat.toDigits 16 n

/-- One character as it stands inside a quoted text. -/
def quoteChar (c : Char) : List Char :=
  if c = '\x00' then ['\\', '0']
  else if c = '\t' then ['\\', 't']
  else if c = '\r' then ['\\', 'r']
  else if c = '\n' then ['\\', 'n']
  else if c = '"' then ['\\', '"']
  else if c = '\\' then ['\\', '\\']
  else if isHidden c then ['\\', 'u', '\x7b'] ++ hexDigits c.toNat ++ ['\x7d']
  else [c]

/-- A text between double quotes. -/
def quoted (s : String) : String :=
  String.ofList ('"' :: s.toList.flatMap quoteChar ++ ['"'])

end NetSpec.Text
