import NetSpec.Compiler.Diary
import NetSpec.Script.Printer

/-!
# Specifications of networks

A specification is a text that declares the inputs and outputs of a network and asserts
linear constraints on them. Reading one goes from characters to a script and from the script
to its properties. An `Error` says on which of the two ways it failed, and an error in the
text says at which place.
-/

namespace NetSpec

/-- Why a specification has no properties. -/
inductive Error where
  | lexical (error : Placed LexicalError)
  | syntactic (error : Placed SyntaxError)
  | compile (error : CompileError Float)
  | read (error : ReadError)

namespace Error

/-- A failure to read has no place in the text, and an error of the lexer is one on its own. -/
def ofSyntax (e : Placed SyntaxError) : Error :=
  match e.value with
  | .lexical (.read failure) => .read failure
  | .lexical error => .lexical ⟨error, e.span⟩
  | _ => .syntactic e

/-- An error in the text begins with its place. -/
def message : Error → String
  | lexical e => e.span.start.text ++ ": " ++ e.value.message
  | syntactic e => e.span.start.text ++ ": " ++ e.value.message
  | compile e => e.message
  | read e => "io: " ++ e.text

/-- The piece of text that is wrong. -/
def span? : Error → Option Span
  | lexical e => some e.span
  | syntactic e => some e.span
  | _ => none

/-- An error of the lexer, other than a failure to read. -/
def isLexical : Error → Bool
  | lexical _ => true
  | _ => false

end Error

namespace Specification

/-- The script of a specification. The strict dialect has no exponents in numbers. -/
def parse (source : Source) (strict : Bool) : Except Error Script :=
  (Script.ofSource source strict).mapError .ofSyntax

/-- The properties that a script states. -/
def compile (script : Script) (config : Configuration) : Except Error (List (Property Float)) :=
  (script.compile config).mapError .compile

/-- Parse and compile, and what was noted on the way, in order. -/
def compileWithDiary (source : Source) (strict : Bool) (config : Configuration) :
    Except Error (List (Property Float)) × List Entry :=
  let (script, warnings) := Script.read source strict
  let noted := warnings.reverse.map Entry.warning
  match script with
  | .error e => (.error (.ofSyntax e), noted)
  | .ok script =>
    let (result, entries) := script.compileWithDiary config
    (result.mapError .compile, noted ++ entries)

/-- The properties in the content of a file, or in none, for vectors `X` and `Y` of given
sizes. Exponents are accepted. -/
def compileFile (content : Except ReadError (List UInt8)) (inputSize outputSize : Nat) :
    Except Error (List (Property Float)) := do
  let bytes ← content.mapError .read
  let script ← parse (.ofBytes bytes none) false
  compile script ⟨"X", "Y", some inputSize, some outputSize⟩

end Specification

end NetSpec
