import NetSpec.Proofs.Number.Spelling
import NetSpec.Token.Lexer

/-!
# Lexing a text piece by piece

The tokens of a text do not depend on where the text stands, so they can be found from its
end: a blank in front changes nothing, and a lexeme in front adds its token. Names and
literals end only where something follows that does not continue them, which in a written
script is a blank or a closing parenthesis.
-/

namespace NetSpec

/-- Behind a name or a literal there is nothing, a blank or a closing parenthesis. -/
def Delimited (rest : List Char) : Prop := ∀ c ∈ rest.head?, isBlank c = true ∨ c = ')'

/-- Characters that lex to given tokens, wherever they stand. -/
def Lexes (strict : Bool) (cs : List Char) (ts : List Token) : Prop :=
  ∀ location, (Lexer.mk ⟨cs, none⟩ strict location false).stream.failure = none ∧
    (Lexer.mk ⟨cs, none⟩ strict location false).stream.tokens.map (·.value) = ts

/-- A piece of text that is one lexeme in front of whatever delimits it. -/
def IsLexeme (strict : Bool) (cs : List Char) (t : Token) : Prop :=
  ∃ first others, cs = first :: others ∧ first ≠ ';' ∧ isBlank first = false ∧
    ∀ rest, Delimited rest →
      Scan.lexeme strict none first (others ++ rest) = ⟨cs, rest, .ok t⟩

/-- What can begin a lexeme begins no gap. -/
def BeginsLexeme (c : Char) : Prop := c ≠ ';' ∧ isBlank c = false

namespace Scan

theorem gap_of_begins {rest : List Char} (begins : ∀ c ∈ rest.head?, BeginsLexeme c) :
    Scan.gap false rest = ([], rest) := by
  cases rest with
  | nil => rfl
  | cons c rest =>
    obtain ⟨notComment, notBlank⟩ := begins c rfl
    simp [Scan.gap, notComment, notBlank]

theorem gap_of_blank {c : Char} (blank : isBlank c = true) (cs : List Char) :
    Scan.gap false (c :: cs) = (c :: (Scan.gap false cs).1, (Scan.gap false cs).2) := by
  have notComment : decide (c = ';') = false := by
    refine decide_eq_false fun same => ?_
    rw [same] at blank
    cases blank
  rw [Scan.gap, if_neg Bool.false_ne_true, blank, Bool.or_true, if_pos rfl, notComment]

end Scan

namespace Lexer

/-- Lexers that go on alike read alike. -/
theorem stream_congr {l m : Lexer} (same : l.next = m.next) : l.stream = m.stream := by
  rw [stream, stream, same]

theorem stream_of_finished {l : Lexer} (done : l.finished = true) : l.stream = ⟨[], none⟩ := by
  rw [stream, next_of_finished done]

theorem stream_of_token {l rest : Lexer} {t : Placed Token}
    (taken : l.next = (some (.ok t), rest)) : l.stream = rest.stream.cons t := by
  rw [stream, taken]

end Lexer

namespace Lexes

variable {strict : Bool} {cs rest taken : List Char} {t : Token} {ts : List Token}

/-- At the end of a text there is only its token. -/
theorem nil : Lexes strict [] [.eof] := by
  intro location
  have last : (Lexer.mk ⟨[], none⟩ strict location false).next =
      (some (.ok ⟨.eof, location.clear⟩), ⟨⟨[], none⟩, strict, location.clear, true⟩) := rfl
  rw [Lexer.stream_of_token last, Lexer.stream_of_finished rfl]
  exact ⟨rfl, rfl⟩

/-- A blank changes nothing. -/
theorem blank {c : Char} (blank : isBlank c = true) (lexes : Lexes strict cs ts) :
    Lexes strict (c :: cs) ts := by
  intro location
  have same : (Lexer.mk ⟨c :: cs, none⟩ strict location false).next =
      (Lexer.mk ⟨cs, none⟩ strict (location.push c) false).next := by
    rw [Lexer.next, Lexer.next, Scan.gap_of_blank blank]
    rfl
  rw [Lexer.stream_congr same]
  exact lexes (location.push c)

/-- A lexeme adds its token. -/
theorem lexeme {c : Char} (begins : BeginsLexeme c)
    (scan : Scan.lexeme strict none c cs = ⟨taken, rest, .ok t⟩)
    (lexes : Lexes strict rest ts) : Lexes strict (c :: cs) (t :: ts) := by
  intro location
  have gap : Scan.gap false (c :: cs) = ([], c :: cs) :=
    Scan.gap_of_begins (forall_mem_head?_cons begins cs)
  have token : (Lexer.mk ⟨c :: cs, none⟩ strict location false).next =
      (some (.ok ⟨t, location.clear.extend taken⟩),
        ⟨⟨rest, none⟩, strict, location.clear.extend taken, false⟩) := by
    rw [Lexer.next, gap]
    dsimp only
    rw [scan]
    rfl
  have behind := lexes (location.clear.extend taken)
  rw [Lexer.stream_of_token token]
  exact ⟨behind.1, congrArg (t :: ·) behind.2⟩

theorem openParen (lexes : Lexes strict cs ts) : Lexes strict ('(' :: cs) (.openParen :: ts) :=
  lexes.lexeme ⟨by decide, rfl⟩ rfl

theorem closeParen (lexes : Lexes strict cs ts) : Lexes strict (')' :: cs) (.closeParen :: ts) :=
  lexes.lexeme ⟨by decide, rfl⟩ rfl

/-- A delimited lexeme adds its token. -/
theorem append (word : IsLexeme strict cs t) (delimited : Delimited rest)
    (lexes : Lexes strict rest ts) : Lexes strict (cs ++ rest) (t :: ts) := by
  obtain ⟨first, others, rfl, notComment, notBlank, scan⟩ := word
  exact lexes.lexeme ⟨notComment, notBlank⟩ (scan rest delimited)

end Lexes

end NetSpec
