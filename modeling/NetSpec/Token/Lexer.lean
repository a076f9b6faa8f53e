import NetSpec.Text.Position
import NetSpec.Token.Scan

/-!
# Reading tokens one by one

A lexer holds what is still to be read and the piece of text that it is reading. Each step
skips a gap and reads one lexeme, and the piece then covers that lexeme. The end of the text
is a token of its own. After it, and after the first error, there are no more items and the
lexer does not change: `Lexer.next_of_finished`. Every step before takes something away, as
`Lexer.remaining_next` says, so `Lexer.stream` reaches the end.
-/

namespace NetSpec

/-- A reader of tokens: what it has not read, its dialect, and the piece of text it is at. -/
structure Lexer where
  source : Source
  strict : Bool
  location : Span
  finished : Bool

/-- One result of a lexer. -/
abbrev Lexer.Item := Except (Placed LexicalError) (Placed Token)

namespace Lexer

/-- A lexer in front of a source. -/
def new (source : Source) (strict : Bool) : Lexer :=
  ⟨source, strict, .point .origin, false⟩

/-- Read the next item. A failure of the source in a gap is reported at the piece that the
gap has extended, since no lexeme has begun. -/
def next (l : Lexer) : Option Item × Lexer :=
  if l.finished then (none, l)
  else
    let failure := l.source.failure
    let (gap, rest) := Scan.gap false l.source.chars
    let location := l.location.extend gap
    match rest with
    | [] =>
      match failure with
      | some e =>
        (some (.error ⟨.read e, location⟩), ⟨⟨[], failure⟩, l.strict, location, true⟩)
      | none =>
        let location := location.clear
        (some (.ok ⟨.eof, location⟩), ⟨⟨[], failure⟩, l.strict, location, true⟩)
    | c :: cs =>
      let scan := Scan.lexeme l.strict failure c cs
      let location := location.clear.extend scan.taken
      let source : Source := ⟨scan.rest, failure⟩
      match scan.outcome with
      | .ok token => (some (.ok ⟨token, location⟩), ⟨source, l.strict, location, false⟩)
      | .error e => (some (.error ⟨e, location⟩), ⟨source, l.strict, location, true⟩)

theorem next_of_finished {l : Lexer} (done : l.finished = true) : l.next = (none, l) := by
  simp [next, done]

section Next

variable {strict : Bool} {failure : Option ReadError} {c : Char} {cs gap behind w rest : List Char}

/-- Behind the last gap there is the end of the text. -/
theorem next_of_end (skipped : Scan.gap false cs = (gap, [])) (location : Span) :
    (Lexer.mk ⟨cs, none⟩ strict location false).next =
      (some (.ok ⟨.eof, (location.extend gap).clear⟩),
        ⟨⟨[], none⟩, strict, (location.extend gap).clear, true⟩) := by
  simp [next, skipped]

/-- Behind the last gap the source fails. -/
theorem next_of_read {e : ReadError} (skipped : Scan.gap false cs = (gap, []))
    (location : Span) :
    (Lexer.mk ⟨cs, some e⟩ strict location false).next =
      (some (.error ⟨.read e, location.extend gap⟩),
        ⟨⟨[], some e⟩, strict, location.extend gap, true⟩) := by
  simp [next, skipped]

/-- Behind a gap there is what is no lexeme. -/
theorem next_of_wrong {e : LexicalError} (skipped : Scan.gap false cs = (gap, c :: behind))
    (read : Scan.lexeme strict failure c behind = ⟨w, rest, .error e⟩) (location : Span) :
    (Lexer.mk ⟨cs, failure⟩ strict location false).next =
      (some (.error ⟨e, (location.extend gap).clear.extend w⟩),
        ⟨⟨rest, failure⟩, strict, (location.extend gap).clear.extend w, true⟩) := by
  simp [next, skipped, read]

/-- Behind a gap there is a lexeme. -/
theorem next_of_lexeme {t : Token} (skipped : Scan.gap false cs = (gap, c :: behind))
    (read : Scan.lexeme strict failure c behind = ⟨w, rest, .ok t⟩) (location : Span) :
    (Lexer.mk ⟨cs, failure⟩ strict location false).next =
      (some (.ok ⟨t, (location.extend gap).clear.extend w⟩),
        ⟨⟨rest, failure⟩, strict, (location.extend gap).clear.extend w, false⟩) := by
  simp [next, skipped, read]

/-- A gap and a lexeme take at least one character. -/
theorem length_rest_lt {outcome : Except LexicalError Token}
    (skipped : Scan.gap false cs = (gap, c :: behind))
    (read : Scan.lexeme strict failure c behind = ⟨w, rest, outcome⟩) :
    rest.length < cs.length := by
  have whole := congrArg List.length (Scan.gap_append false cs)
  have lexeme := congrArg List.length (Scan.lexeme_append strict failure c behind)
  have first := (Scan.lexeme_begins strict failure c behind).length_le
  rw [skipped, List.length_append] at whole
  rw [read, List.length_append] at lexeme
  rw [read, List.length_singleton] at first
  dsimp only at whole lexeme first
  omega

end Next

/-- What bounds the items that are still to come. -/
def remaining (l : Lexer) : Nat :=
  if l.finished then 0 else l.source.chars.length + 1

theorem remaining_of_finished {l : Lexer} (done : l.finished = true) : l.remaining = 0 :=
  if_pos done

theorem remaining_of_going {l : Lexer} (going : l.finished = false) :
    l.remaining = l.source.chars.length + 1 := by
  rw [remaining, going, if_neg Bool.false_ne_true]

/-- Each item is either the last one or has taken something away. -/
theorem remaining_next {l rest : Lexer} {item : Item} (h : l.next = (some item, rest)) :
    rest.remaining < l.remaining := by
  obtain ⟨⟨cs, failure⟩, strict, location, finished⟩ := l
  cases finished with
  | true =>
    rw [next_of_finished rfl] at h
    cases h
  | false =>
    have bound : (Lexer.mk ⟨cs, failure⟩ strict location false).remaining = cs.length + 1 :=
      remaining_of_going rfl
    rw [bound]
    rcases skipped : Scan.gap false cs with ⟨gap, behind⟩
    cases behind with
    | nil =>
      have done : rest.finished = true := by
        cases failure with
        | none =>
          rw [next_of_end skipped] at h
          cases h
          rfl
        | some e =>
          rw [next_of_read skipped] at h
          cases h
          rfl
      rw [remaining_of_finished done]
      exact Nat.succ_pos _
    | cons c behind =>
      rcases read : Scan.lexeme strict failure c behind with ⟨w, left, outcome⟩
      cases outcome with
      | error e =>
        rw [next_of_wrong skipped read] at h
        cases h
        exact Nat.succ_pos _
      | ok t =>
        rw [next_of_lexeme skipped read] at h
        cases h
        exact Nat.succ_lt_succ (length_rest_lt skipped read)

end Lexer

/-- The tokens of a source in order, and the error that ended them, if one did. -/
structure TokenStream where
  tokens : List (Placed Token)
  failure : Option (Placed LexicalError)

namespace TokenStream

def cons (t : Placed Token) (s : TokenStream) : TokenStream :=
  { s with tokens := t :: s.tokens }

/-- All tokens, unless an error ended them. -/
def toExcept (s : TokenStream) : Except (Placed LexicalError) (List (Placed Token)) :=
  match s.failure with
  | none => .ok s.tokens
  | some e => .error e

end TokenStream

/-- All items that a lexer still gives. -/
def Lexer.stream (l : Lexer) : TokenStream :=
  match _taken : l.next with
  | (none, _) => ⟨[], none⟩
  | (some (.error e), _) => ⟨[], some e⟩
  | (some (.ok t), rest) => rest.stream.cons t
termination_by l.remaining
decreasing_by exact remaining_next _taken

/-- The tokens of a source, the end of the text included. -/
def Source.tokens (source : Source) (strict : Bool) :
    Except (Placed LexicalError) (List (Placed Token)) :=
  (Lexer.new source strict).stream.toExcept

end NetSpec
