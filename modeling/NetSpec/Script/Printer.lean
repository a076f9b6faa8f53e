import NetSpec.Number.Layout
import NetSpec.Script.Basic

/-!
# Written scripts

A script is written one command a line. Names stand as they are, without bars, and a quote
inside a text is written twice. An integer is written in base ten, a real in the layout of
literals, so that a reader takes each for what it is.
-/

namespace NetSpec

/-- Quotes inside a text are written twice. -/
def doubleQuotes (cs : List Char) : List Char :=
  cs.flatMap fun c => if c = '"' then ['"', '"'] else [c]

def Constant.text : Constant → String
  | .int n => n.toInt.repr
  | .real x => Layout.literal.text x
  | .string s => String.ofList ('"' :: doubleQuotes s.toList ++ ['"'])

mutual

def Term.text : Term → String
  | .apply f args => "(" ++ f ++ " " ++ Term.textArgs args ++ ")"
  | .constant c => c.text
  | .identifier name => name

/-- Arguments are separated by single spaces. -/
def Term.textArgs : List Term → String
  | [] => ""
  | [t] => Term.text t
  | t :: ts => Term.text t ++ " " ++ Term.textArgs ts

end

def Command.text : Command → String
  | .declareConst symbol sort => "(declare-const " ++ symbol ++ " " ++ sort ++ ")"
  | .assert t => "(assert " ++ t.text ++ ")"

/-- Every command ends its line. -/
def Script.text (s : Script) : String :=
  s.commands.foldr (fun command text => command.text ++ "\n" ++ text) ""

end NetSpec
