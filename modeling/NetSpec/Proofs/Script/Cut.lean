import NetSpec.Proofs.Script.Acceptance
import NetSpec.Proofs.Token.Cut

/-!
# Scripts in sources that fail

A parser takes the tokens in front of a failure as it takes them in any longer source, until it
needs the token behind the last of them. `Parser.Cut` relates two parsers that have the same tokens
in front of them up to a failure of the one. Every reader then meets the failure, or it gives the
same result for both and leaves related parsers: one lemma for each way in which readers are put
together, and one for each reader.

A source that fails is never parsed as a script. Either its failure is the error, or the error is
one of every text that begins with the same characters.
-/

namespace NetSpec

namespace Parser

variable {l : Placed LexicalError} {p q : Parser} {α β : Type}

/-- A parser whose tokens end at a failure, and one that has others behind them. -/
structure Cut (l : Placed LexicalError) (p q : Parser) : Prop where
  current : q.current = p.current
  upcoming : p.upcoming <+: q.upcoming
  failure : p.failure = some l
  symbols : q.symbols = p.symbols

/-- Steps of such parsers: the first meets the failure, or both do the same. -/
inductive Step.Cut (l : Placed LexicalError) {p q : Parser} : Step p α → Step q α → Prop where
  | lexical {r : Parser} {whole : Step q α} : Cut l (.error (l.map .lexical) r) whole
  | error (e : Placed SyntaxError) (r r' : Parser) : Cut l (.error e r) (.error e r')
  | ok (a : α) {r r' : Parser} {shorter : r.size < p.size} {shorter' : r'.size < q.size}
      (behind : r.Cut l r') : Cut l (.ok a r shorter) (.ok a r' shorter')

namespace Step.Cut

variable {cut : Step p α} {whole : Step q α}

theorem bind {f : (a : α) → (r : Parser) → r.size < p.size → Step r β}
    {f' : (a : α) → (r : Parser) → r.size < q.size → Step r β} (first : cut.Cut l whole)
    (next : ∀ a r r' shorter shorter', r.Cut l r' → (f a r shorter).Cut l (f' a r' shorter')) :
    (cut.bind f).Cut l (whole.bind f') := by
  cases first with
  | lexical => exact .lexical
  | error e r r' => exact .error e r r'
  | @ok a r r' shorter shorter' behind =>
    have later := next a r r' shorter shorter' behind
    simp only [Step.bind]
    generalize f a _ _ = second at later ⊢
    generalize f' a _ _ = second' at later ⊢
    cases later with
    | lexical => exact .lexical
    | error e r r' => exact .error e r r'
    | ok b behind => exact .ok b behind

theorem map (first : cut.Cut l whole) (f : α → β) : (cut.map f).Cut l (whole.map f) := by
  cases first with
  | lexical => exact .lexical
  | error e r r' => exact .error e r r'
  | ok a behind => exact .ok (f a) behind

theorem check (first : cut.Cut l whole) (f : α → Except (Placed SyntaxError) β) :
    (cut.check f).Cut l (whole.check f) := by
  cases first with
  | lexical => exact .lexical
  | error e r r' => exact .error e r r'
  | ok a behind =>
    simp only [Step.check]
    cases f a with
    | error e => exact .error e _ _
    | ok b => exact .ok b behind

end Step.Cut

namespace Cut

/-- The next token is the failure, or it is the same for both. -/
theorem advance (h : p.Cut l q) : (∃ r, p.advance = (.error l, r)) ∨
    ∃ r r', p.advance = (.ok p.current, r) ∧ q.advance = (.ok p.current, r') ∧ r.Cut l r' := by
  obtain ⟨current, upcoming, failure, symbols, warnings⟩ := p
  obtain ⟨current', upcoming', failure', symbols', warnings'⟩ := q
  obtain ⟨same, ⟨after, rfl⟩, fails, scope⟩ := h
  obtain rfl : current' = current := same
  obtain rfl : failure = some l := fails
  cases upcoming with
  | nil => exact .inl ⟨_, rfl⟩
  | cons u us => exact .inr ⟨_, _, rfl, rfl, rfl, List.prefix_append us after, rfl, scope⟩

theorem accept (h : p.Cut l q) (acceptable : Token → Option α) (proper : acceptable .eof = none) :
    (p.accept acceptable proper).Cut l (q.accept acceptable proper) := by
  obtain ⟨r, failed⟩ | ⟨r, r', taken, taken', behind⟩ := h.advance
  · rw [accept_of_failed failed]
    exact .lexical
  · cases found : acceptable p.current.value with
    | none =>
      rw [accept_of_refused taken found, accept_of_refused taken' found]
      exact .error _ r r'
    | some a =>
      obtain ⟨shorter, accepted⟩ : ∃ shorter, p.accept acceptable proper =
          .ok ⟨a, p.current.span⟩ r shorter := accept_of_taken taken found
      obtain ⟨shorter', accepted'⟩ : ∃ shorter, q.accept acceptable proper =
          .ok ⟨a, p.current.span⟩ r' shorter := accept_of_taken taken' found
      rw [accepted, accepted']
      exact .ok _ behind

theorem refuse (h : p.Cut l q) : (p.refuse : Step p α).Cut l (q.refuse : Step q α) :=
  (h.accept _ rfl).map _

theorem expect (h : p.Cut l q) (kind : TokenKind) (proper : kind ≠ .eof) :
    (p.expect kind proper).Cut l (q.expect kind proper) := by
  simp only [Parser.expect, h.current]
  split
  next => exact h.accept _ _
  next => exact .error _ p q

theorem symbol (h : p.Cut l q) : p.symbol.Cut l q.symbol := h.accept _ rfl

theorem literal (h : p.Cut l q) : p.literal.Cut l q.literal := (h.accept _ rfl).check _

theorem remark (h : p.Cut l q) (name : String) : (p.remark name).Cut l (q.remark name) := by
  simp only [Parser.remark]
  split
  next => exact ⟨h.current, h.upcoming, h.failure, h.symbols⟩
  next => exact h

theorem declare (h : p.Cut l q) (name sort : String) :
    (p.declare name sort).Cut l (q.declare name sort) :=
  ⟨h.current, h.upcoming, h.failure, congrArg (·.declare name sort) h.symbols⟩

theorem symbolTerm (h : p.Cut l q) : p.symbolTerm.Cut l q.symbolTerm := by
  have first := h.symbol
  simp only [Parser.symbolTerm]
  generalize p.symbol = cut at first ⊢
  generalize q.symbol = whole at first ⊢
  cases first with
  | lexical => exact .lexical
  | error e r r' => exact .error e r r'
  | ok name behind =>
    dsimp only
    rw [behind.symbols]
    split
    next e _ => exact .error _ _ _
    next t _ => exact .ok t (behind.remark name.value)

theorem term_of_args (h : p.Cut l q) (args : ∀ r r' : Parser, r.size < p.size → r.Cut l r' →
    r.args.Cut l r'.args) : p.term.Cut l q.term := by
  unfold Parser.term
  rw [h.current]
  split
  next => exact h.symbolTerm
  next =>
    refine (h.expect .openParen _).bind fun _ p₁ q₁ shorter₁ _ h₁ => ?_
    refine h₁.symbol.bind fun head p₂ q₂ shorter₂ _ h₂ => ?_
    rw [h₂.symbols]
    split
    next => exact .error _ p₂ q₂
    next => exact (args p₂ q₂ (Nat.lt_trans shorter₂ shorter₁) h₂).map _
  next => exact h.refuse
  next => exact h.refuse
  all_goals exact h.literal

theorem args_of_term (term : p.term.Cut l q.term)
    (args : ∀ r r' : Parser, r.size < p.size → r.Cut l r' → r.args.Cut l r'.args) :
    p.args.Cut l q.args := by
  unfold Parser.args
  refine term.bind fun t r r' shorter _ behind => ?_
  rw [behind.current]
  split
  next => exact (behind.expect .closeParen _).map _
  next => exact (args r r' shorter behind).map _

theorem term_args (h : p.Cut l q) : p.term.Cut l q.term ∧ p.args.Cut l q.args := by
  induction size : p.size using Nat.strongRecOn generalizing p q with
  | ind n ih =>
    have args (r r' : Parser) (shorter : r.size < p.size) (behind : r.Cut l r') :=
      (ih r.size (size ▸ shorter) behind rfl).2
    have term := h.term_of_args args
    exact ⟨term, args_of_term term args⟩

theorem declaration (h : p.Cut l q) : p.declaration.Cut l q.declaration := by
  refine h.symbol.bind fun name p₁ q₁ _ _ h₁ => ?_
  have second := h₁.symbol
  generalize p₁.symbol = cut at second ⊢
  generalize q₁.symbol = whole at second ⊢
  cases second with
  | lexical => exact .lexical
  | error e r r' => exact .error e r r'
  | ok sort behind =>
    dsimp only
    split
    next => exact .error _ _ _
    next s _ => exact .ok _ (behind.declare name.value s)

theorem command (h : p.Cut l q) : p.command.Cut l q.command := by
  refine (h.expect .openParen _).bind fun _ p₁ q₁ _ _ h₁ => ?_
  refine h₁.symbol.bind fun keyword p₂ q₂ _ _ h₂ => ?_
  refine Step.Cut.bind ?_ fun c p₃ q₃ _ _ h₃ => (h₃.expect .closeParen _).map _
  split_ifs
  · exact h₂.term_args.1.map _
  · exact h₂.declaration
  · exact .error _ p₂ q₂

/-- All commands together meet the failure, or have the same result. -/
theorem commands (h : p.Cut l q) :
    p.commands.1 = .error (l.map .lexical) ∨ p.commands.1 = q.commands.1 := by
  induction size : p.size using Nat.strongRecOn generalizing p q with
  | ind n ih =>
    have first := h.command
    unfold Parser.commands
    rw [h.current]
    split
    next => exact .inr rfl
    next =>
      generalize p.command = cut at first ⊢
      generalize q.command = whole at first ⊢
      cases first with
      | lexical => exact .inl rfl
      | error e r r' => exact .inr rfl
      | @ok c r r' shorter _ behind =>
        obtain failed | same := ih r.size (size ▸ shorter) behind rfl
        · exact .inl (congrArg (Except.map (c :: ·)) failed)
        · exact .inr (congrArg (Except.map (c :: ·)) same)

end Cut

end Parser

/-- What the parser finds in a stream that is cut off is the failure, or what it finds in the whole
stream. -/
theorem Script.ofStream_cut {e : ReadError} {cut whole : TokenStream} (h : cut.Cut e whole) :
    (∃ span, ofStream cut = .error ⟨.lexical (.read e), span⟩) ∨ ofStream cut = ofStream whole := by
  cases h with
  | wrong inside => exact .inr rfl
  | @read before after span failure inside =>
    cases before with
    | nil => exact .inl ⟨span, rfl⟩
    | cons t ts =>
      have parsers : (Parser.mk t ts (some ⟨.read e, span⟩) .empty []).Cut ⟨.read e, span⟩
          (Parser.mk t (ts ++ after) failure .empty []) :=
        ⟨rfl, List.prefix_append ts after, rfl, rfl⟩
      obtain failed | same := parsers.commands
      · exact .inl ⟨span, congrArg (Except.map Script.mk) failed⟩
      · exact .inr (congrArg (Except.map Script.mk) same)

namespace Specification

/-- A source that fails is not parsed. Its failure is the error, or the error is that of every
source with the same characters in front. -/
theorem parse_of_failure (cs : List Char) (e : ReadError) (strict : Bool) :
    parse ⟨cs, some e⟩ strict = .error (.read e) ∨
      ∃ error, parse ⟨cs, some e⟩ strict = .error error ∧
        ∀ more failure, parse ⟨cs ++ more, failure⟩ strict = .error error := by
  have streams (more : List Char) (failure : Option ReadError) :=
    Lexer.stream_cut strict e cs more failure (.point .origin)
  have found (source : Source) : parse source strict =
      (Script.ofStream (Lexer.new source strict).stream).mapError .ofSyntax :=
    congrArg _ (Script.ofSource_eq_ofStream source strict)
  by_cases met : ∃ span, Script.ofStream (Lexer.new ⟨cs, some e⟩ strict).stream =
      .error ⟨.lexical (.read e), span⟩
  · obtain ⟨span, failed⟩ := met
    left
    rw [found, failed]
    rfl
  · right
    have same (more : List Char) (failure : Option ReadError) :
        Script.ofStream (Lexer.new ⟨cs, some e⟩ strict).stream =
          Script.ofStream (Lexer.new ⟨cs ++ more, failure⟩ strict).stream :=
      (Script.ofStream_cut (streams more failure)).resolve_left met
    cases outcome : Script.ofStream (Lexer.new ⟨cs, some e⟩ strict).stream with
    | ok script =>
      -- A script has all tokens of its stream, and these would have to end in the end of the text.
      have cut := streams [] none
      exact absurd (Script.phrase_of_ok cut.endsOnce outcome).1 cut.fails
    | error failed =>
      refine ⟨.ofSyntax failed, by rw [found, outcome]; rfl, fun more failure => ?_⟩
      rw [found, ← same, outcome]
      rfl

/-- Reading bytes agrees with reading text, whatever the decoder: a function from bytes, and what is
met behind them, to characters, and what is met behind these. Bytes that decode to a whole text have
the outcome of the text. If reading fails behind some characters, nothing is parsed: the failure is
the error, or the error is that of every text that begins with these characters. -/
theorem parse_decoded (decode : List UInt8 → Option ReadError → Source) (bytes : List UInt8)
    (failure : Option ReadError) (strict : Bool) :
    ((decode bytes failure).failure = none → parse (decode bytes failure) strict =
      parse (.ofText (String.ofList (decode bytes failure).chars)) strict) ∧
    ∀ e, (decode bytes failure).failure = some e →
      parse (decode bytes failure) strict = .error (.read e) ∨
        ∃ error, parse (decode bytes failure) strict = .error error ∧
          ∀ text : String, (decode bytes failure).chars <+: text.toList →
            parse (.ofText text) strict = .error error := by
  obtain ⟨cs, fails⟩ := decode bytes failure
  constructor
  · rintro rfl
    rw [Source.ofText, String.toList_ofList]
  · rintro e rfl
    refine (parse_of_failure cs e strict).imp id ?_
    rintro ⟨error, failed, all⟩
    refine ⟨error, failed, ?_⟩
    rintro text ⟨more, whole⟩
    rw [Source.ofText, ← whole]
    exact all more none

/-- The bytes end inside a character behind `())`. The second parenthesis is wrong already, and it
is in every text with these characters in front. -/
theorem parse_decoded_truncated :
    (Source.ofBytes [0x28, 0x29, 0x29, 0xC3] none).failure = some .truncatedSequence ∧
    ∃ error, parse (.ofBytes [0x28, 0x29, 0x29, 0xC3] none) true = .error error ∧
      ∀ text : String, ['(', ')', ')'] <+: text.toList →
        parse (.ofText text) true = .error error := by
  have fails : (Source.ofBytes [0x28, 0x29, 0x29, 0xC3] none).failure =
      some .truncatedSequence := by decide
  obtain ⟨s, refused, -⟩ : ∃ s,
      parse (.ofBytes [0x28, 0x29, 0x29, 0xC3] none) true = .error (.syntactic s) ∧
        s.value = .unexpectedToken .closeParen := exists_syntactic (by decide +kernel)
  refine ⟨fails, ?_⟩
  obtain met | error :=
    (parse_decoded Source.ofBytes [0x28, 0x29, 0x29, 0xC3] none true).2 _ fails
  · cases refused.symm.trans met
  · exact error

end Specification

end NetSpec
