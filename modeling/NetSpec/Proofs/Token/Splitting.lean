import NetSpec.Proofs.Token.Taken

/-!
# A text splits into gaps and lexemes

Between lexemes there are gaps of blanks and comments. A comment goes up to the end of its line
or of the text, which is part of a gap only at the end. The tokens of a text are those of its
lexemes, each the longest where it begins, and the end of the text. No character is outside a
gap or a lexeme, so nothing is lost.

`Lexer.Run` is what a lexer does with a text apart from the places that it notes. It gives
tokens up to the end of the text or up to an error, and its other facts are read off it.
-/

namespace NetSpec

/-- Blanks and comments. Only the last gap may end inside a comment. -/
inductive IsGap (last : Bool) : List Char → Prop where
  | nil : IsGap last []
  | blank {c : Char} {gap : List Char} (own : isBlank c = true) (others : IsGap last gap) :
      IsGap last (c :: gap)
  | comment {body gap : List Char} {c : Char} (inside : ∀ d ∈ body, isLineEnd d = false)
      (lineEnd : isLineEnd c = true) (others : IsGap last gap) :
      IsGap last (';' :: (body ++ c :: gap))
  | lastComment {body : List Char} (isLast : last = true)
      (inside : ∀ d ∈ body, isLineEnd d = false) : IsGap last (';' :: body)

/-- How characters split into gaps and lexemes with given tokens: each lexeme is one of the
dialect, is complete, and is not extended by the character behind it. -/
inductive Splits (strict : Bool) : List Char → List Token → Prop where
  | last {gap : List Char} (isGap : IsGap true gap) : Splits strict gap [.eof]
  | lexeme {gap w rest : List Char} {more : Char → Bool} {t : Token} {ts : List Token}
      (isGap : IsGap false gap) (own : Lexeme strict more w t)
      (maximal : ∀ c ∈ rest.head?, ¬ Extends w c) (complete : Complete w t rest)
      (others : Splits strict rest ts) : Splits strict (gap ++ (w ++ rest)) (t :: ts)

/-- What a lexer gives for characters: tokens, and the error that ended them if one did. -/
inductive Lexer.Run (strict : Bool) : List Char → List Token → Option LexicalError → Prop where
  | last {cs gap : List Char} (skipped : Scan.gap false cs = (gap, [])) :
      Run strict cs [.eof] none
  | token {cs gap behind w rest : List Char} {c : Char} {t : Token} {ts : List Token}
      {e : Option LexicalError} (skipped : Scan.gap false cs = (gap, c :: behind))
      (read : Scan.lexeme strict none c behind = ⟨w, rest, .ok t⟩) (others : Run strict rest ts e) :
      Run strict cs (t :: ts) e
  | error {cs gap behind w rest : List Char} {c : Char} {e : LexicalError}
      (skipped : Scan.gap false cs = (gap, c :: behind))
      (read : Scan.lexeme strict none c behind = ⟨w, rest, .error e⟩) : Run strict cs [] (some e)

variable {strict : Bool} {cs gap rest : List Char} {ts : List Token} {e : Option LexicalError}

/-! ### Gaps -/

namespace Scan

theorem gap_of_semicolon (cs : List Char) :
    Scan.gap false (';' :: cs) = (';' :: (Scan.gap true cs).1, (Scan.gap true cs).2) := rfl

/-- A comment goes up to the end of its line. -/
theorem gap_of_comment {body : List Char} {c : Char} (inside : ∀ d ∈ body, isLineEnd d = false)
    (lineEnd : isLineEnd c = true) (cs : List Char) :
    Scan.gap true (body ++ c :: cs) =
      (body ++ c :: (Scan.gap false cs).1, (Scan.gap false cs).2) := by
  induction body with
  | nil => rw [List.nil_append, List.nil_append, Scan.gap, if_pos rfl, lineEnd]; rfl
  | cons d body ih =>
    have behind := ih fun d mem => inside d (List.mem_cons_of_mem _ mem)
    rw [List.cons_append, Scan.gap, if_pos rfl, inside d List.mem_cons_self, Bool.not_false, behind]
    rfl

/-- A comment may go up to the end of the text. -/
theorem gap_of_lastComment {body : List Char} (inside : ∀ d ∈ body, isLineEnd d = false) :
    Scan.gap true body = (body, []) := by
  induction body with
  | nil => rfl
  | cons d body ih =>
    have behind := ih fun d mem => inside d (List.mem_cons_of_mem _ mem)
    rw [Scan.gap, if_pos rfl, inside d List.mem_cons_self, Bool.not_false, behind]

end Scan

/-- A gap is skipped, up to what begins a lexeme or to the end of the text. -/
theorem IsGap.skipped {last : Bool} (isGap : IsGap last gap) (atEnd : last = true → rest = [])
    (begins : ∀ c ∈ rest.head?, BeginsLexeme c) : Scan.gap false (gap ++ rest) = (gap, rest) := by
  induction isGap with
  | nil => exact Scan.gap_of_begins begins
  | blank own _ ih => rw [List.cons_append, Scan.gap_of_blank own, ih]
  | comment inside lineEnd _ ih =>
    rw [List.cons_append, List.append_assoc, List.cons_append, Scan.gap_of_semicolon,
      Scan.gap_of_comment inside lineEnd, ih]
  | lastComment isLast inside =>
    rw [atEnd isLast, List.append_nil, Scan.gap_of_semicolon, Scan.gap_of_lastComment inside]

/-- Characters go up to the end of a line, or there is none among them. -/
theorem lineEnd_cases (cs : List Char) : (∀ d ∈ cs, isLineEnd d = false) ∨
    ∃ body c others, cs = body ++ c :: others ∧ (∀ d ∈ body, isLineEnd d = false) ∧
      isLineEnd c = true := by
  induction cs with
  | nil => exact .inl (List.forall_mem_nil _)
  | cons c cs ih =>
    cases first : isLineEnd c with
    | true => exact .inr ⟨[], c, cs, rfl, List.forall_mem_nil _, first⟩
    | false =>
      rcases ih with none | ⟨body, d, others, rfl, inside, lineEnd⟩
      · exact .inl (List.forall_mem_cons.mpr ⟨first, none⟩)
      · exact .inr ⟨c :: body, d, others, rfl, List.forall_mem_cons.mpr ⟨first, inside⟩, lineEnd⟩

/-- What is skipped is a gap. -/
theorem Scan.isGap_gap (skipped : Scan.gap false cs = (gap, rest)) :
    IsGap rest.isEmpty gap := by
  -- A comment is skipped as a whole, so the induction is on the length.
  induction size : cs.length using Nat.strongRecOn generalizing cs gap with
  | ind n ih =>
    cases cs with
    | nil =>
      cases skipped
      exact .nil
    | cons c cs =>
      cases blank : isBlank c with
      | true =>
        rw [Scan.gap_of_blank blank] at skipped
        cases skipped
        exact .blank blank (ih cs.length (by simp [← size]) rfl rfl)
      | false =>
        by_cases comment : c = ';'
        · rw [comment, Scan.gap_of_semicolon] at skipped
          rcases lineEnd_cases cs with inside | ⟨body, d, others, rfl, inside, lineEnd⟩
          · rw [Scan.gap_of_lastComment inside] at skipped
            cases skipped
            exact .lastComment rfl inside
          · have shorter : others.length < n := by
              simp at size
              omega
            rw [Scan.gap_of_comment inside lineEnd] at skipped
            cases skipped
            exact .comment inside lineEnd (ih others.length shorter rfl rfl)
        · have begins : BeginsLexeme c := ⟨comment, blank⟩
          cases (Scan.gap_of_begins (forall_mem_head?_cons begins cs)).symm.trans skipped
          exact .nil

/-! ### Runs -/

theorem Lexeme.ne_eof {strict : Bool} {more : Char → Bool} {w : List Char} {t : Token}
    (lexeme : Lexeme strict more w t) : t ≠ .eof := by
  cases lexeme <;> exact nofun

namespace Lexer

section Stream

variable {w behind : List Char} {c : Char} {failure : Option ReadError}

/-- Behind the last lexeme there is the end of the text. -/
theorem stream_of_end (skipped : Scan.gap false cs = (gap, [])) (location : Span) :
    (Lexer.mk ⟨cs, none⟩ strict location false).stream =
      ⟨[⟨.eof, (location.extend gap).clear⟩], none⟩ := by
  rw [stream_of_token (next_of_end skipped location), stream_of_finished rfl]
  rfl

/-- A lexeme that is none ends the tokens. -/
theorem stream_of_wrong {e : LexicalError} (skipped : Scan.gap false cs = (gap, c :: behind))
    (read : Scan.lexeme strict failure c behind = ⟨w, rest, .error e⟩) (location : Span) :
    (Lexer.mk ⟨cs, failure⟩ strict location false).stream =
      ⟨[], some ⟨e, (location.extend gap).clear.extend w⟩⟩ := by
  rw [stream, next_of_wrong skipped read]

/-- A lexeme adds its token to those of what is behind it. -/
theorem stream_of_lexeme {t : Token} (skipped : Scan.gap false cs = (gap, c :: behind))
    (read : Scan.lexeme strict failure c behind = ⟨w, rest, .ok t⟩) (location : Span) :
    (Lexer.mk ⟨cs, failure⟩ strict location false).stream =
      ((Lexer.mk ⟨rest, failure⟩ strict ((location.extend gap).clear.extend w) false).stream.cons
        ⟨t, (location.extend gap).clear.extend w⟩) :=
  stream_of_token (next_of_lexeme skipped read location)

end Stream

/-- Wherever a text stands, a lexer gives its run. -/
theorem run_stream (strict : Bool) (cs : List Char) (location : Span) :
    Run strict cs ((Lexer.mk ⟨cs, none⟩ strict location false).stream.tokens.map (·.value))
      ((Lexer.mk ⟨cs, none⟩ strict location false).stream.failure.map (·.value)) := by
  induction size : cs.length using Nat.strongRecOn generalizing cs location with
  | ind n ih =>
    rcases skipped : Scan.gap false cs with ⟨gap, _ | ⟨c, behind⟩⟩
    · rw [stream_of_end skipped]
      exact .last skipped
    · rcases read : Scan.lexeme strict none c behind with ⟨w, rest, e | t⟩
      · rw [stream_of_wrong skipped read]
        exact .error skipped read
      · have shorter : rest.length < n := size ▸ length_rest_lt skipped read
        rw [stream_of_lexeme skipped read]
        exact .token skipped read (ih rest.length shorter rest _ rfl)

namespace Run

/-- A text has one run. -/
theorem unique {ts' : List Token} {e' : Option LexicalError} (run : Run strict cs ts e)
    (run' : Run strict cs ts' e') : ts = ts' ∧ e = e' := by
  induction run generalizing ts' e' with
  | last skipped =>
    cases run' with
    | last _ => exact ⟨rfl, rfl⟩
    | token skipped' _ _ => cases skipped.symm.trans skipped'
    | error skipped' _ => cases skipped.symm.trans skipped'
  | token skipped read _ ih =>
    cases run' with
    | last skipped' => cases skipped.symm.trans skipped'
    | token skipped' read' others' =>
      cases skipped.symm.trans skipped'
      cases read.symm.trans read'
      obtain ⟨rfl, rfl⟩ := ih others'
      exact ⟨rfl, rfl⟩
    | error skipped' read' =>
      cases skipped.symm.trans skipped'
      cases read.symm.trans read'
  | error skipped read =>
    cases run' with
    | last skipped' => cases skipped.symm.trans skipped'
    | token skipped' read' _ =>
      cases skipped.symm.trans skipped'
      cases read.symm.trans read'
    | error skipped' read' =>
      cases skipped.symm.trans skipped'
      cases read.symm.trans read'
      exact ⟨rfl, rfl⟩

theorem eof_notMem (run : Run strict cs ts e) (failed : e ≠ none) : .eof ∉ ts := by
  induction run with
  | last _ => exact absurd rfl failed
  | token _ read _ ih =>
    obtain ⟨more, own, -⟩ := Scan.lexeme_ok read
    exact List.not_mem_cons_of_ne_of_not_mem own.ne_eof.symm (ih failed)
  | error _ _ => exact List.not_mem_nil

theorem exists_concat (run : Run strict cs ts e) (complete : e = none) :
    ∃ own, ts = own ++ [.eof] ∧ .eof ∉ own := by
  induction run with
  | last _ => exact ⟨[], rfl, List.not_mem_nil⟩
  | token _ read _ ih =>
    obtain ⟨more, own, -⟩ := Scan.lexeme_ok read
    obtain ⟨others, rfl, absent⟩ := ih complete
    exact ⟨_ :: others, rfl, List.not_mem_cons_of_ne_of_not_mem own.ne_eof.symm absent⟩
  | error _ _ => cases complete

/-- A run without an error splits its text. -/
theorem splits (run : Run strict cs ts e) (complete : e = none) : Splits strict cs ts := by
  induction run with
  | @last cs gap skipped =>
    have whole := Scan.gap_append false cs
    rw [skipped, List.append_nil] at whole
    rw [← whole]
    exact .last (Scan.isGap_gap skipped)
  | @token cs gap behind w rest c t ts e skipped read _ ih =>
    have whole := Scan.gap_append false cs
    have lexeme := Scan.lexeme_append strict none c behind
    rw [skipped] at whole
    rw [read] at lexeme
    obtain ⟨more, own, stops, complete'⟩ := Scan.lexeme_ok read
    rw [← whole, ← lexeme]
    exact .lexeme (Scan.isGap_gap skipped) own (own.stops_iff.mp stops) complete' (ih complete)
  | error _ _ => cases complete

end Run

end Lexer

/-- The end of the text is the last of the tokens, unless an error stands in its place. -/
def TokenStream.EndsOnce (s : TokenStream) : Prop :=
  match s.failure with
  | none => ∃ own, s.tokens.map (·.value) = own ++ [.eof] ∧ .eof ∉ own
  | some _ => .eof ∉ s.tokens.map (·.value)

theorem TokenStream.EndsOnce.eof_notMem {s : TokenStream} {before after : List (Placed Token)}
    {bad : Placed Token} (ends : s.EndsOnce) (split : s.tokens = before ++ bad :: after) :
    .eof ∉ before.map (·.value) := by
  simp only [TokenStream.EndsOnce, split, List.map_append, List.map_cons] at ends
  split at ends
  next =>
    obtain ⟨own, same, absent⟩ := ends
    have whole := congrArg List.dropLast same
    rw [List.dropLast_append_of_ne_nil (List.cons_ne_nil _ _), List.dropLast_concat] at whole
    rw [← whole] at absent
    exact fun mem => absent (List.mem_append_left _ mem)
  next => exact fun mem => ends (List.mem_append_left _ mem)

/-- The tokens of a text end once. -/
theorem Lexer.endsOnce_stream (strict : Bool) (cs : List Char) (location : Span) :
    (Lexer.mk ⟨cs, none⟩ strict location false).stream.EndsOnce := by
  have run := run_stream strict cs location
  simp only [TokenStream.EndsOnce]
  split
  next complete => exact run.exists_concat (by rw [complete]; rfl)
  next failed => exact run.eof_notMem (by rw [failed]; exact nofun)

/-- A text that splits is read to its end, with the tokens of its lexemes. -/
theorem Splits.run (splits : Splits strict cs ts) : Lexer.Run strict cs ts none := by
  induction splits with
  | last isGap =>
    have nothing : ∀ c ∈ ([] : List Char).head?, BeginsLexeme c := nofun
    have skipped := isGap.skipped (fun _ => rfl) nothing
    rw [List.append_nil] at skipped
    exact .last skipped
  | lexeme isGap own maximal complete _ ih =>
    obtain ⟨first, others, rfl, begins, read⟩ := own.scan (own.stops_iff.mpr maximal) complete
    exact .token (isGap.skipped nofun (forall_mem_head?_cons begins _)) read ih

/-- A text has tokens if and only if it splits into gaps and lexemes, and they are the tokens
of these lexemes. -/
theorem Source.tokens_ofText_iff_splits (text : String) (strict : Bool) (ts : List Token) :
    (∃ placed, (Source.ofText text).tokens strict = .ok placed ∧ placed.map (·.value) = ts) ↔
      Splits strict text.toList ts := by
  have run := Lexer.run_stream strict text.toList (.point .origin)
  have read : (Source.ofText text).tokens strict =
      (Lexer.mk ⟨text.toList, none⟩ strict (.point .origin) false).stream.toExcept := rfl
  rw [read, TokenStream.toExcept]
  constructor
  · rintro ⟨placed, ok, rfl⟩
    split at ok
    next complete =>
      cases ok
      rw [complete] at run
      exact run.splits rfl
    next => cases ok
  · intro splits
    obtain ⟨tokens, failure⟩ := run.unique splits.run
    rw [Option.map_eq_none_iff.mp failure]
    exact ⟨_, rfl, tokens⟩

end NetSpec
