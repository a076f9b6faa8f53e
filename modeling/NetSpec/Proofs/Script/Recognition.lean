import NetSpec.Proofs.Script.Phrases

/-!
# What the parser recognizes

Each reader of the parser recognizes the phrases of the grammar: it reads the phrase that its
tokens begin with, or it fails at the first token that no phrase can go on with. Terms and
arguments call each other, and everything else is put together from them.
-/

namespace NetSpec

namespace Parser

variable {p : Parser}

/-- A remark takes nothing. -/
theorem Passes.remark {q : Parser} {read : List (Placed Token)} (passes : p.Passes read q)
    (name : String) : p.Passes read (q.remark name) ∧ (q.remark name).symbols = q.symbols := by
  simp only [Parser.remark]
  split
  next => exact ⟨⟨passes.ahead, passes.failure⟩, rfl⟩
  next => exact ⟨passes, rfl⟩

theorem symbolTerm_recognizes {name : String} (current : p.current.value = .symbol name) :
    p.symbolTerm.Recognizes (Term.Phrase p.symbols) fun _ => p.symbols := by
  rcases p.symbol_cases with
    ⟨e, q, failure, taken⟩ | ⟨q, absent, -⟩ | ⟨other, q, shorter, found, taken, passes, symbols⟩
  · rw [symbolTerm, taken]
    exact .lexical failure
  · rw [current] at absent
    cases absent
  · cases current.symm.trans found
    rw [symbolTerm, taken]
    dsimp only
    rcases q.symbols.interpret_cases name with ⟨t, means, reading⟩ | ⟨e, failed, blames, none⟩
    · obtain ⟨passes, remarked⟩ := passes.remark name
      have recognized : Step.Recognizes (p := p) (.ok t (q.remark name) (by simpa using shorter))
          (Term.Phrase p.symbols) fun _ => p.symbols := by
        refine ⟨⟨[p.current], passes, ?_⟩, remarked.trans symbols⟩
        rw [symbols] at reading
        rw [List.map_singleton, current]
        exact reading.map .symbol
      split
      next failed => cases means.symm.trans failed
      next t' means' =>
        cases means.symm.trans means'
        exact recognized
    · rw [symbols] at none
      have refused : p.Refuses (Term.Phrase p.symbols) ⟨e, p.current.span⟩ := by
        refine .here Term.Phrase.proper (fun ts t phrase => ?_) rfl ?_
        · rw [current] at phrase
          obtain ⟨reading⟩ := phrase.of_symbol.2
          exact (none t).false reading
        · rwa [current]
      split
      next e' failed' =>
        cases failed.symm.trans failed'
        exact refused
      next means => cases failed.symm.trans means

theorem literal_recognizes (literal : p.current.value.kind.isLiteral = true) :
    p.literal.Recognizes (Term.Phrase p.symbols) fun _ => p.symbols := by
  rcases p.accept_cases (fun t => if t.kind.isLiteral then some t else none) rfl with
    ⟨e, q, failure, taken⟩ | ⟨q, absent, -⟩ | ⟨a, q, shorter, found, taken, passes, symbols⟩
  · rw [Parser.literal, taken]
    exact .lexical failure
  · rw [if_pos literal] at absent
    cases absent
  · rw [if_pos literal] at found
    cases found
    rw [Parser.literal, taken]
    simp only [Step.check]
    cases value : Constant.ofToken? p.current.value with
    | some c => exact ⟨⟨[p.current], passes, ⟨.literal value⟩⟩, symbols⟩
    | none =>
      refine .here Term.Phrase.proper (fun ts t phrase => ?_) rfl rfl
      obtain ⟨c, found⟩ := phrase.of_literal literal
      cases value.symm.trans found

/-- The end of the text and a closing parenthesis begin no term. -/
theorem refuse_recognizes {α : Type} {phrase : List Token → α → Prop} {scope : α → Scope}
    (proper : Proper phrase) (never : ∀ ts a, ¬ phrase (p.current.value :: ts) a) :
    (p.refuse : Step p α).Recognizes phrase scope := by
  rcases p.accept_cases (fun _ => (none : Option α)) rfl with
    ⟨e, q, failure, taken⟩ | ⟨q, -, taken⟩ | ⟨a, q, shorter, found, -⟩
  · rw [refuse, taken]
    exact .lexical failure
  · rw [refuse, taken]
    exact .here proper never rfl rfl
  · cases found

/-- A token of a kind is expected; whatever follows it is left to the reader behind. -/
theorem expect_bind_recognizes {α : Type} {phrase : List Token → α → Prop} {scope : α → Scope}
    {kind : TokenKind} {notEnd : kind ≠ .eof}
    {f : (t : Placed Token) → (q : Parser) → q.size < p.size → Step q α} (proper : Proper phrase)
    (only : p.current.value.kind ≠ kind → ∀ ts a, ¬ phrase (p.current.value :: ts) a)
    (behind : ∀ q shorter, p.current.value.kind = kind → q.symbols = p.symbols →
      (f ⟨p.current.value, p.current.span⟩ q shorter).Recognizes
        (fun ts a => phrase (p.current.value :: ts) a) scope) :
    ((p.expect kind notEnd).bind f).Recognizes phrase scope := by
  simp only [Parser.expect]
  split
  next same =>
    refine accept_bind_recognizes proper (fun absent => ?_) fun a q shorter found symbols => ?_
    · rw [if_pos same] at absent
      cases absent
    · rw [if_pos same] at found
      cases found
      exact .inl (behind q shorter same symbols)
  next other => exact .here proper (only other) rfl rfl

theorem eq_of_kind_openParen {t : Token} (kind : t.kind = .openParen) : t = .openParen := by
  cases t <;> first | rfl | cases kind

theorem eq_of_kind_eof {t : Token} (kind : t.kind = .eof) : t = .eof := by
  cases t <;> first | rfl | cases kind

theorem exists_symbol_of_kind {t : Token} (kind : t.kind = .symbol) : ∃ name, t = .symbol name := by
  cases t <;> first | exact ⟨_, rfl⟩ | cases kind

theorem eq_of_kind_closeParen {t : Token} (kind : t.kind = .closeParen) : t = .closeParen := by
  cases t <;> first | rfl | cases kind

/-- A closing parenthesis alone. -/
theorem closing_recognizes {α : Type} (a : α) :
    ((p.expect .closeParen (by decide)).map fun _ => a).Recognizes
      (fun ts b => ts = [.closeParen] ∧ b = a) fun _ => p.symbols := by
  simp only [Parser.expect]
  split
  next kind =>
    rcases p.accept_cases (fun t => if t.kind = .closeParen then some t else none) rfl with
      ⟨e, q, failure, taken⟩ | ⟨q, absent, -⟩ | ⟨t, q, shorter, -, taken, passes, symbols⟩
    · rw [taken]
      exact .lexical failure
    · rw [if_pos kind] at absent
      cases absent
    · rw [taken]
      refine ⟨⟨[p.current], passes, ?_, rfl⟩, symbols⟩
      rw [List.map_singleton, eq_of_kind_closeParen kind]
  next other =>
    refine .here ⟨⟨_, a, rfl, rfl⟩, fun _ held => ?_⟩ ?_ rfl rfl
    · exact List.cons_ne_nil _ _ held.1.symm
    rintro ts b ⟨same, -⟩
    exact other (congrArg Token.kind (List.cons.inj same).1)

/-- An application is recognized if arguments are. -/
theorem application_recognizes (current : p.current.value = .openParen)
    (args : ∀ q : Parser, q.size < p.size →
      q.args.Recognizes (Term.ArgsPhrase q.symbols) fun _ => q.symbols) :
    p.term.Recognizes (Term.Phrase p.symbols) fun _ => p.symbols := by
  have kind : p.current.value.kind = .openParen := congrArg Token.kind current
  rw [Parser.term, kind]
  refine expect_bind_recognizes Term.Phrase.proper (fun other => absurd kind other)
    fun p₁ less₁ _ symbols₁ => ?_
  rw [current]
  refine accept_bind_recognizes Term.Phrase.proper_behind_openParen ?_
    fun name p₂ less₂ found symbols₂ => ?_
  · intro absent ts t phrase
    obtain ⟨function, own, args, same, -⟩ := phrase.of_openParen
    rw [(List.cons.inj same).1] at absent
    cases absent
  have head := eq_of_symbol? found
  have symbols : p₂.symbols = p.symbols := symbols₂.trans symbols₁
  rcases p₂.symbols.resolve_cases name with ⟨inside, resolved⟩ | ⟨outside, e, failed, blames⟩
  · left
    rw [head]
    split
    next failed => cases resolved.symm.trans failed
    next function resolved' =>
      cases resolved.symm.trans resolved'
      have args := args p₂ (Nat.lt_trans less₂ less₁)
      rw [symbols] at args inside
      have applied : ((Parser.args p₂).map (Term.apply name)).Recognizes _
          fun _ => p.symbols := args.map fun _ => rfl
      exact applied.congr fun ts t => (Term.Phrase.apply_iff inside).symm
  · right
    split
    next e' failed' =>
      cases failed.symm.trans failed'
      refine ⟨_, _, rfl, .here Term.Phrase.proper_behind_openParen ?_ rfl ?_⟩
      · intro ts t phrase
        rw [head] at phrase
        obtain ⟨function, own, args, same, -, inside, -⟩ := phrase.of_openParen
        cases same
        rw [symbols] at outside
        cases outside.symm.trans inside
      · rw [head]
        exact blames name (.inl rfl)
    next resolved => cases failed.symm.trans resolved

/-- What a term is can be told from its first token. -/
theorem term_recognizes_of_args (args : ∀ q : Parser, q.size < p.size →
      q.args.Recognizes (Term.ArgsPhrase q.symbols) fun _ => q.symbols) :
    p.term.Recognizes (Term.Phrase p.symbols) fun _ => p.symbols := by
  have refused (begins : ¬ p.current.value.BeginsTerm) :
      (p.refuse : Step p Term).Recognizes (Term.Phrase p.symbols) fun _ => p.symbols :=
    refuse_recognizes Term.Phrase.proper fun ts t phrase => begins phrase.beginsTerm
  by_cases opens : p.current.value = .openParen
  · exact application_recognizes opens args
  rw [Parser.term]
  split
  next kind =>
    obtain ⟨name, current⟩ := exists_symbol_of_kind kind
    exact symbolTerm_recognizes current
  next kind => exact absurd (eq_of_kind_openParen kind) opens
  next kind => exact refused (by rw [eq_of_kind_eof kind]; decide)
  next kind => exact refused (by rw [eq_of_kind_closeParen kind]; decide)
  next kind => exact literal_recognizes (by rw [kind]; rfl)
  next kind => exact literal_recognizes (by rw [kind]; rfl)
  next kind => exact literal_recognizes (by rw [kind]; rfl)
  next kind => exact literal_recognizes (by rw [kind]; rfl)
  next kind => exact literal_recognizes (by rw [kind]; rfl)

/-- Behind an argument the next token tells whether it was the last one. -/
theorem args_recognizes_of_term
    (term : p.term.Recognizes (Term.Phrase p.symbols) fun _ => p.symbols)
    (args : ∀ q : Parser, q.size < p.size →
      q.args.Recognizes (Term.ArgsPhrase q.symbols) fun _ => q.symbols) :
    p.args.Recognizes (Term.ArgsPhrase p.symbols) fun _ => p.symbols := by
  rw [Parser.args]
  refine term.bind Term.ArgsPhrase.initial fun t q shorter read held symbols => ?_
  by_cases kind : q.current.value.kind = .closeParen
  · rw [if_pos kind, eq_of_kind_closeParen kind]
    refine ⟨_, Term.ArgsPhrase.residual_last held, ?_⟩
    rw [← symbols]
    exact closing_recognizes [t]
  · have more : q.current.value ≠ .closeParen := fun same => kind (congrArg Token.kind same)
    rw [if_neg kind]
    refine ⟨_, Term.ArgsPhrase.residual_more held more, ?_⟩
    have others := args q shorter
    rw [symbols] at others
    exact others.map fun _ => rfl

/-- Terms and arguments are recognized. -/
theorem term_args_recognizes (p : Parser) :
    p.term.Recognizes (Term.Phrase p.symbols) (fun _ => p.symbols) ∧
      p.args.Recognizes (Term.ArgsPhrase p.symbols) fun _ => p.symbols := by
  induction size : p.size using Nat.strongRecOn generalizing p with
  | ind n ih =>
    -- Arguments begin with a term that the same parser reads, so terms come first at each size.
    have args (q : Parser) (shorter : q.size < p.size) :=
      (ih q.size (size ▸ shorter) q rfl).2
    have term := term_recognizes_of_args args
    exact ⟨term, args_recognizes_of_term term args⟩

theorem term_recognizes (p : Parser) :
    p.term.Recognizes (Term.Phrase p.symbols) fun _ => p.symbols := (term_args_recognizes p).1

/-- What has been read of a body is the body, if a parenthesis closes it. -/
theorem closed_recognizes {α : Type} {body : List Token → α → Prop} {scope : α → Scope}
    {s : Step p α} (recognizes : s.Recognizes body scope)
    (unique : ∀ ts ts' us us' a a', body ts a → body ts' a' → ts ++ us = ts' ++ us' →
      ts = ts' ∧ a = a') :
    (s.bind fun a q _ => (q.expect .closeParen (by decide)).map fun _ => a).Recognizes
      (fun ts a => ∃ own, ts = own ++ [.closeParen] ∧ body own a) scope := by
  refine recognizes.bind ⟨?_, ?_⟩ fun a q shorter read held symbols => ?_
  · intro ts a held
    exact ⟨[.closeParen], a, ts, rfl, held⟩
  · rintro _ a ⟨ts, rfl, held⟩
    exact ⟨ts, [.closeParen], a, rfl, held⟩
  · refine ⟨fun ts b => ts = [.closeParen] ∧ b = a, ⟨?_, ?_⟩, ?_⟩
    · rintro _ _ ⟨rfl, rfl⟩
      exact ⟨_, rfl, held⟩
    · rintro _ us vs b ⟨ts, rfl, held'⟩ same
      rw [List.append_assoc] at same
      obtain ⟨rfl, rfl⟩ := unique _ _ _ _ _ _ held' held same
      exact ⟨[.closeParen], b, ⟨rfl, rfl⟩, List.append_cancel_left same⟩
    · refine (closing_recognizes a).with_scope ?_
      rintro _ _ ⟨-, rfl⟩
      exact symbols

theorem declaration_recognizes : p.declaration.Recognizes Command.DeclarationPhrase
    fun command => command.scope p.symbols := by
  have proper : Proper Command.DeclarationPhrase :=
    ⟨⟨_, _, "X", "Real", by decide, rfl, rfl⟩, fun _ ⟨_, _, _, _, same⟩ => nomatch same⟩
  refine accept_bind_recognizes proper ?_ fun symbol p₁ less₁ found symbols₁ => .inl ?_
  · rintro absent ts command ⟨symbol, sort, -, -, same⟩
    rw [(List.cons.inj same).1] at absent
    cases absent
  have head := eq_of_symbol? found
  rw [head]
  have proper₁ : Proper fun ts c => Command.DeclarationPhrase (.symbol symbol :: ts) c :=
    ⟨⟨_, _, symbol, "Real", by decide, rfl, rfl⟩, fun _ ⟨_, _, _, _, same⟩ => nomatch same⟩
  rcases p₁.symbol_cases with ⟨e, q, failure, taken⟩ | ⟨q, absent, taken⟩ |
    ⟨sort, q, shorter, current, taken, passes, symbols⟩
  · rw [taken]
    exact .lexical failure
  · rw [taken]
    refine .here proper₁ ?_ rfl rfl
    rintro ts command ⟨symbol, sort, -, -, same⟩
    rw [(List.cons.inj (List.cons.inj same).2).1] at absent
    cases absent
  · rw [taken]
    dsimp only
    cases known : sort? sort with
    | none =>
      refine .here proper₁ ?_ rfl current
      rintro ts command ⟨symbol, sort', known', -, same⟩
      rw [current] at same
      cases same
      cases known.symm.trans (sort?_eq_some_iff.mpr ⟨rfl, known'⟩)
    | some s =>
      obtain ⟨rfl, known⟩ := sort?_eq_some_iff.mp known
      refine ⟨⟨[p₁.current], ⟨passes.ahead, passes.failure⟩, ?_⟩, ?_⟩
      · rw [List.map_singleton, current]
        exact ⟨symbol, _, known, rfl, rfl⟩
      · have symbols : q.symbols = p.symbols := symbols.trans symbols₁
        rw [declare, symbols]
        rfl

theorem command_recognizes : p.command.Recognizes (Command.Phrase p.symbols)
    fun command => command.scope p.symbols := by
  refine expect_bind_recognizes Command.Phrase.proper ?_ fun p₁ less₁ kind symbols₁ => ?_
  · rintro other ts command ⟨d⟩
    obtain ⟨rest, same⟩ := d.exists_cons
    exact other (congrArg Token.kind (List.cons.inj same).1)
  rw [eq_of_kind_openParen kind]
  refine accept_bind_recognizes Command.Phrase.proper_behind_openParen ?_
    fun name p₂ less₂ found symbols₂ => ?_
  · intro absent ts command phrase
    rcases phrase.keyword with same | same <;>
    · rw [same] at absent
      cases absent
  have symbols : p₂.symbols = p.symbols := symbols₂.trans symbols₁
  have head := eq_of_symbol? found
  dsimp only
  by_cases assert : name = "assert"
  · left
    rw [head, if_pos assert]
    have body : (p₂.term.map Command.assert).Recognizes _ fun command => command.scope p₂.symbols :=
      (term_recognizes p₂).map fun _ => rfl
    rw [symbols] at body
    refine (closed_recognizes body ?_).congr fun ts command =>
      (Command.Phrase.assert_iff assert).symm
    rintro ts ts' us us' _ _ ⟨t, rfl, ⟨d⟩⟩ ⟨t', rfl, ⟨d'⟩⟩ same
    obtain ⟨rfl, rfl, -⟩ := d.unique d' same
    exact ⟨rfl, rfl⟩
  by_cases declare : name = "declare-const"
  · left
    rw [head, if_neg assert, if_pos declare]
    have body := declaration_recognizes (p := p₂)
    rw [symbols] at body
    refine (closed_recognizes body ?_).congr fun ts command =>
      (Command.Phrase.declareConst_iff declare).symm
    rintro _ _ us us' _ _ ⟨symbol, sort, -, rfl, rfl⟩ ⟨symbol', sort', -, rfl, rfl⟩ same
    simp only [List.cons_append, List.cons.injEq, Token.symbol.injEq] at same
    obtain ⟨rfl, rfl, -⟩ := same
    exact ⟨rfl, rfl⟩
  · right
    rw [if_neg assert, if_neg declare]
    refine ⟨_, _, rfl, .here Command.Phrase.proper_behind_openParen ?_ rfl head⟩
    intro ts command phrase
    rw [head] at phrase
    rcases phrase.keyword with same | same <;> cases same
    · exact assert rfl
    · exact declare rfl

/-- What all commands together are read from, or why they are refused. -/
theorem commands_recognizes (p : Parser) :
    (∃ commands, p.commands.1 = .ok commands ∧
      Script.Phrase p.symbols (p.ahead.map (·.value)) commands) ∨
    ∃ e, p.commands.1 = .error e ∧ p.Refuses (Script.Phrase p.symbols) e := by
  induction size : p.size using Nat.strongRecOn generalizing p with
  | ind n ih =>
    rw [Parser.commands]
    split
    next last =>
      refine .inl ⟨[], rfl, ?_⟩
      rw [ahead_of_eof last, List.map_singleton, last]
      exact ⟨.nil⟩
    next more =>
      have recognized := p.command_recognizes
      cases taken : p.command with
      | error e q =>
        rw [taken] at recognized
        have refused : p.Refuses _ e := recognized.initial Script.Phrase.initial
        -- Nothing has been read, but what is left is no longer the empty script.
        have here : p.Passes [] p := ⟨rfl, rfl⟩
        exact .inr ⟨e, rfl, .behind here (Script.Phrase.residual_command more) refused⟩
      | ok command q shorter =>
        rw [taken] at recognized
        obtain ⟨⟨read, passes, held⟩, symbols⟩ := recognized
        rcases ih q.size (by omega) q rfl with ⟨others, read', held'⟩ | ⟨e, failed, refused⟩
        · refine .inl ⟨command :: others, ?_, ?_⟩
          · show q.commands.1.map _ = _
            rw [read']
            rfl
          · rw [symbols] at held'
            obtain ⟨d⟩ := held
            obtain ⟨d'⟩ := held'
            rw [passes.ahead, List.map_append]
            exact ⟨.cons d d'⟩
        · refine .inr ⟨e, ?_, ?_⟩
          · show q.commands.1.map _ = _
            rw [failed]
            rfl
          · rw [symbols] at refused
            exact .behind passes (Script.Phrase.residual_behind held) (refused.map (command :: ·))

end Parser

end NetSpec
