import NetSpec.Proofs.Script.Literal
import NetSpec.Proofs.Script.Term

/-!
# The tokens of a script

A script is writable if its text can be read at all: names stand without bars, no name begins
with a minus and so reads as a number or as the opposite of another, and every literal fits
the dialect. A script is readable if a reader can have found it: what it names is in scope at
its place, its sorts exist and its functions have arguments. The text of a script that is
both lexes to the tokens of its tree.
-/

namespace NetSpec

theorem isPlain_iff {cs : List Char} : IsPlain cs ↔ cs ≠ [] ∧ cs.all isSymbolChar = true ∧
    cs.head?.all (fun c => !c.isDigit) = true := by
  have leading : cs.head?.all (fun c => !c.isDigit) = true ↔
      ∀ c ∈ cs.head?, c.isDigit = false := by
    simp [Option.all_eq_true]
  rw [leading, List.all_eq_true]
  exact ⟨fun plain => ⟨plain.nonempty, plain.chars, plain.leading⟩,
    fun held => ⟨held.1, held.2.1, held.2.2⟩⟩

instance (cs : List Char) : Decidable (IsPlain cs) := decidable_of_iff _ isPlain_iff.symm

instance (strict : Bool) (c : Constant) : Decidable (c.Writable strict) :=
  match c with
  | .int _ => inferInstanceAs (Decidable True)
  | .real _ => inferInstanceAs (Decidable (_ ∧ (_ → _ → _ ∨ _)))
  | .string _ => inferInstanceAs (Decidable True)

namespace Term

mutual

/-- Functions and names are plain, and no name begins with a minus. -/
def Writable (strict : Bool) : Term → Prop
  | .apply function args => IsPlain function.toList ∧ AllWritable strict args
  | .constant c => c.Writable strict
  | .identifier name => IsPlain name.toList ∧ name.toList.head? ≠ some '-'

def AllWritable (strict : Bool) : List Term → Prop
  | [] => True
  | arg :: args => Writable strict arg ∧ AllWritable strict args

end

mutual

def decidableWritable (strict : Bool) : (t : Term) → Decidable (t.Writable strict)
  | .apply _ args =>
    have := decidableAllWritable strict args
    inferInstanceAs (Decidable (_ ∧ _))
  | .constant c => inferInstanceAs (Decidable (c.Writable strict))
  | .identifier _ => inferInstanceAs (Decidable (_ ∧ _))

def decidableAllWritable (strict : Bool) : (args : List Term) → Decidable (AllWritable strict args)
  | [] => inferInstanceAs (Decidable True)
  | arg :: args =>
    have := decidableWritable strict arg
    have := decidableAllWritable strict args
    inferInstanceAs (Decidable (_ ∧ _))

end

instance (strict : Bool) (t : Term) : Decidable (t.Writable strict) := decidableWritable strict t

mutual

/-- Functions and names are in scope, and functions have arguments. -/
def Readable (scope : Scope) : Term → Prop
  | .apply function args =>
    scope.contains function = true ∧ args ≠ [] ∧ AllReadable scope args
  | .constant c => c.Readable
  | .identifier name => scope.contains name = true

def AllReadable (scope : Scope) : List Term → Prop
  | [] => True
  | arg :: args => Readable scope arg ∧ AllReadable scope args

end

theorem allWritable_iff {strict : Bool} {args : List Term} :
    AllWritable strict args ↔ ∀ arg ∈ args, arg.Writable strict := by
  induction args with
  | nil => simp [AllWritable]
  | cons arg args ih => rw [AllWritable, ih, List.forall_mem_cons]

theorem allReadable_iff {scope : Scope} {args : List Term} :
    AllReadable scope args ↔ ∀ arg ∈ args, arg.Readable scope := by
  induction args with
  | nil => simp [AllReadable]
  | cons arg args ih => rw [AllReadable, ih, List.forall_mem_cons]

mutual

/-- The tokens of a term. -/
def tokens : Term → List Token
  | .apply function args => .openParen :: .symbol function :: (tokensArgs args ++ [.closeParen])
  | .constant c => [c.token]
  | .identifier name => [.symbol name]

def tokensArgs : List Term → List Token
  | [] => []
  | arg :: args => tokens arg ++ tokensArgs args

end

end Term

namespace Command

/-- A declared name is plain. -/
def Writable (strict : Bool) : Command → Prop
  | declareConst symbol _ => IsPlain symbol.toList
  | assert term => term.Writable strict

instance (strict : Bool) (command : Command) : Decidable (command.Writable strict) :=
  match command with
  | declareConst _ _ => inferInstanceAs (Decidable (IsPlain _))
  | assert term => inferInstanceAs (Decidable (term.Writable strict))

/-- A declared sort exists. -/
def Readable (scope : Scope) : Command → Prop
  | declareConst _ sort => sort ∈ sorts
  | assert term => term.Readable scope

/-- The tokens of a command. -/
def tokens : Command → List Token
  | declareConst symbol sort =>
    [.openParen, .symbol "declare-const", .symbol symbol, .symbol sort, .closeParen]
  | assert term => .openParen :: .symbol "assert" :: (term.tokens ++ [.closeParen])

end Command

namespace Script

/-- Every command is writable. -/
def Writable (strict : Bool) (s : Script) : Prop := ∀ command ∈ s.commands, command.Writable strict

instance (strict : Bool) (s : Script) : Decidable (s.Writable strict) :=
  inferInstanceAs (Decidable (∀ command ∈ s.commands, command.Writable strict))

/-- Every command is readable in the scope that the commands before it leave. -/
def AllReadable : Scope → List Command → Prop
  | _, [] => True
  | scope, command :: commands =>
    command.Readable scope ∧ AllReadable (command.scope scope) commands

/-- The tokens of a script, up to the end of the text. -/
def tokens (s : Script) : List Token := s.commands.flatMap Command.tokens ++ [.eof]

end Script

section Lexing

variable {strict : Bool} {rest : List Char} {ts : List Token}

theorem delimited_blank : Delimited (' ' :: rest) := forall_mem_head?_cons (.inl rfl) rest

theorem delimited_closeParen : Delimited (')' :: rest) := forall_mem_head?_cons (.inr rfl) rest

theorem isLexeme_name {name : String} (plain : IsPlain name.toList) :
    IsLexeme strict name.toList (.symbol name) := by
  have lexeme := isLexeme_symbol plain strict
  rwa [String.ofList_toList] at lexeme

/-- The text of a term lexes to its tokens. -/
def Term.LexesToTokens (strict : Bool) (t : Term) : Prop :=
  ∀ rest ts, Delimited rest → Lexes strict rest ts →
    Lexes strict (t.text.toList ++ rest) (t.tokens ++ ts)

theorem Term.lexes_args {args : List Term} (each : ∀ arg ∈ args, arg.LexesToTokens strict)
    (delimited : Delimited rest) (lexes : Lexes strict rest ts) :
    Lexes strict ((Term.textArgs args).toList ++ rest) (Term.tokensArgs args ++ ts) := by
  induction args with
  | nil => exact lexes
  | cons arg args ih =>
    have first := each arg List.mem_cons_self
    have others := ih fun arg mem => each arg (List.mem_cons_of_mem _ mem)
    rw [Term.tokensArgs, List.append_assoc]
    cases args with
    | nil => exact first rest ts delimited lexes
    | cons next args =>
      have written : (Term.textArgs (arg :: next :: args)).toList ++ rest =
          arg.text.toList ++ (' ' :: ((Term.textArgs (next :: args)).toList ++ rest)) := by
        simp [Term.textArgs]
      rw [written]
      exact first _ _ delimited_blank (others.blank rfl)

theorem Term.lexes {scope : Scope} {t : Term} (writable : t.Writable strict)
    (readable : t.Readable scope) : t.LexesToTokens strict := by
  induction t with
  | apply function args ih =>
    obtain ⟨plain, writableArgs⟩ := writable
    obtain ⟨-, -, readableArgs⟩ := readable
    have each : ∀ arg ∈ args, arg.LexesToTokens strict := fun arg mem =>
      ih arg mem (allWritable_iff.mp writableArgs arg mem) (allReadable_iff.mp readableArgs arg mem)
    intro rest ts delimited lexes
    have written : (Term.apply function args).text.toList ++ rest =
        '(' :: (function.toList ++ (' ' :: ((Term.textArgs args).toList ++ (')' :: rest)))) := by
      simp [Term.text]
    have behind := Term.lexes_args each delimited_closeParen lexes.closeParen
    rw [written, Term.tokens, List.cons_append, List.cons_append, List.append_assoc]
    exact (Lexes.append (isLexeme_name plain) delimited_blank (behind.blank rfl)).openParen
  | constant c =>
    intro rest ts delimited lexes
    exact Lexes.append (c.isLexeme writable readable) delimited lexes
  | identifier name =>
    intro rest ts delimited lexes
    exact Lexes.append (isLexeme_name writable.1) delimited lexes

theorem isPlain_of_mem_sorts : ∀ sort ∈ sorts, IsPlain sort.toList := by decide

theorem Command.text_declareConst (symbol sort : String) : (declareConst symbol sort).text =
    "(declare-const " ++ symbol ++ " " ++ sort ++ ")" := rfl

theorem Command.text_assert (term : Term) :
    (assert term).text = "(assert " ++ term.text ++ ")" := rfl

theorem Command.lexes {scope : Scope} {command : Command} (writable : command.Writable strict)
    (readable : command.Readable scope) (lexes : Lexes strict rest ts) :
    Lexes strict (command.text.toList ++ rest) (command.tokens ++ ts) := by
  cases command with
  | declareConst symbol sort =>
    have keyword : IsPlain "declare-const".toList := by decide
    have sortPlain := isPlain_of_mem_sorts sort readable
    have written : (Command.declareConst symbol sort).text.toList ++ rest =
        '(' :: ("declare-const".toList ++ (' ' :: (symbol.toList ++
          (' ' :: (sort.toList ++ (')' :: rest)))))) := by
      simp [Command.text_declareConst]
    rw [written]
    exact .openParen (.append (isLexeme_name keyword) delimited_blank (.blank rfl
      (.append (isLexeme_name writable) delimited_blank (.blank rfl
        (.append (isLexeme_name sortPlain) delimited_closeParen lexes.closeParen)))))
  | assert term =>
    have keyword : IsPlain "assert".toList := by decide
    have written : (Command.assert term).text.toList ++ rest =
        '(' :: ("assert".toList ++ (' ' :: (term.text.toList ++ (')' :: rest)))) := by
      simp [Command.text_assert]
    have behind := Term.lexes writable readable _ _ delimited_closeParen lexes.closeParen
    rw [written, Command.tokens, List.cons_append, List.cons_append, List.append_assoc]
    exact .openParen (.append (isLexeme_name keyword) delimited_blank (.blank rfl behind))

/-- The text of a script lexes to its tokens. -/
theorem Script.lexes {scope : Scope} {s : Script} (writable : s.Writable strict)
    (readable : AllReadable scope s.commands) : Lexes strict s.text.toList s.tokens := by
  obtain ⟨commands⟩ := s
  induction commands generalizing scope with
  | nil => exact .nil
  | cons command commands ih =>
    have others : Lexes strict (Script.mk commands).text.toList (Script.mk commands).tokens :=
      ih (fun other mem => writable other (List.mem_cons_of_mem _ mem)) readable.2
    have written : (Script.mk (command :: commands)).text.toList =
        command.text.toList ++ ('\n' :: (Script.mk commands).text.toList) := by
      simp [Script.text]
    have tokens : (Script.mk (command :: commands)).tokens =
        command.tokens ++ (Script.mk commands).tokens := List.append_assoc ..
    rw [written, tokens]
    exact Command.lexes (writable command List.mem_cons_self) readable.1 (others.blank rfl)

end Lexing

end NetSpec
