import NetSpec.Proofs.Script.Step

/-!
# What a parser expects

A phrase is a list of tokens with a meaning. `FirstWrong` says that a token is the first one
at which no phrase can go on: the tokens before it begin a phrase, and with it they begin none.
Behind tokens that are read the phrases that are left are their `Residual`, so the first wrong
token of what is left is the first wrong token of the whole.

A reader recognizes phrases if it reads one whenever it can, and otherwise fails at the first
wrong token or at a failure of the source. The rules below follow the ways in which readers
are put together.
-/

namespace NetSpec

section Phrases

variable {α β : Type}

/-- There are phrases, and none without a token. -/
structure Proper (phrase : List Token → α → Prop) : Prop where
  inhabited : ∃ ts a, phrase ts a
  nonempty : ∀ a, ¬ phrase [] a

/-- Some phrase begins with the tokens before a token, and none with that token as well. -/
structure FirstWrong (phrase : List Token → α → Prop) (before : List Token) (bad : Token) :
    Prop where
  viable : ∃ rest a, phrase (before ++ rest) a
  dead : ∀ ts us rest a, phrase ts a → ts ++ us ≠ before ++ bad :: rest

/-- What is left of phrases behind tokens that are read, if a given token is next. -/
structure Residual (phrase : List Token → α → Prop) (read : List Token) (next : Token)
    (rest : List Token → α → Prop) : Prop where
  extend : ∀ ts a, rest ts a → phrase (read ++ ts) a
  split : ∀ ts us vs a, phrase ts a → ts ++ us = read ++ next :: vs →
    ∃ ts' a', rest ts' a' ∧ ts' ++ us = next :: vs

/-- Phrases that begin with other ones. -/
structure Initial (phrase : List Token → β → Prop) (first : List Token → α → Prop) : Prop where
  extend : ∀ ts a, first ts a → ∃ rest b, phrase (ts ++ rest) b
  begins : ∀ ts b, phrase ts b → ∃ read rest a, ts = read ++ rest ∧ first read a

theorem FirstWrong.behind {phrase rest : List Token → α → Prop} {read before after vs : List Token}
    {next bad : Token} (residual : Residual phrase read next rest)
    (wrong : FirstWrong rest before bad) (begins : before ++ bad :: after = next :: vs) :
    FirstWrong phrase (read ++ before) bad where
  viable := by
    obtain ⟨ts, a, held⟩ := wrong.viable
    exact ⟨ts, a, by rw [List.append_assoc]; exact residual.extend _ a held⟩
  dead := by
    intro ts us others a held same
    -- The token behind what has been read is the same one, whatever stands behind the wrong one.
    have head : ∃ vs, before ++ bad :: others = next :: vs := by
      cases before with
      | nil => exact ⟨others, congrArg (· :: others) (List.cons.inj begins).1⟩
      | cons t before =>
        exact ⟨before ++ bad :: others, congrArg (· :: _) (List.cons.inj begins).1⟩
    obtain ⟨vs, head⟩ := head
    rw [List.append_assoc, head] at same
    obtain ⟨ts', a', held', same'⟩ := residual.split ts us vs a held same
    rw [← head] at same'
    exact wrong.dead ts' us others a' held' same'

theorem FirstWrong.initial {phrase : List Token → β → Prop} {first : List Token → α → Prop}
    {before : List Token} {bad : Token} (initial : Initial phrase first)
    (wrong : FirstWrong first before bad) : FirstWrong phrase before bad where
  viable := by
    obtain ⟨rest, a, held⟩ := wrong.viable
    obtain ⟨others, b, held⟩ := initial.extend _ a held
    exact ⟨rest ++ others, b, by rwa [← List.append_assoc]⟩
  dead := by
    intro ts us rest b held same
    obtain ⟨read, others, a, rfl, part⟩ := initial.begins ts b held
    rw [List.append_assoc] at same
    exact wrong.dead read _ rest a part same

theorem Residual.token {phrase : List Token → α → Prop} {t next : Token} (proper : Proper phrase) :
    Residual phrase [t] next fun ts a => phrase (t :: ts) a where
  extend ts a held := held
  split ts us vs a held same := by
    cases ts with
    | nil => exact absurd held (proper.nonempty a)
    | cons t' ts =>
      obtain ⟨rfl, behind⟩ := List.cons.inj same
      exact ⟨ts, a, held, behind⟩

end Phrases

/-- The token that an error speaks of. A name may have been looked up without its minus. -/
def SyntaxError.Blames : SyntaxError → Token → Prop
  | lexical _, _ => False
  | unexpectedToken t, bad | expected _ t, bad | invalidLiteral t, bad => bad = t
  | unknownCommand name, bad | undeclaredSort name, bad => bad = .symbol name
  | undeclaredIdentifier name, bad | exponentNotation name, bad =>
    ∃ written, bad = .symbol written ∧ (written = name ∨ written.toList = '-' :: name.toList)

namespace Parser

variable {p q : Parser} {α β : Type}

/-- Why a reader of phrases fails: at a failure of the source, or at the first token that is
wrong. -/
inductive Refuses (p : Parser) (phrase : List Token → α → Prop) : Placed SyntaxError → Prop where
  | lexical {e : Placed LexicalError} (failure : p.failure = some e) :
      Refuses p phrase (e.map .lexical)
  | syntactic {e : Placed SyntaxError} {before after : List (Placed Token)} {bad : Placed Token}
      (ahead : p.ahead = before ++ bad :: after) (span : e.span = bad.span)
      (blames : e.value.Blames bad.value)
      (wrong : FirstWrong phrase (before.map (·.value)) bad.value) : Refuses p phrase e

namespace Refuses

variable {phrase rest : List Token → α → Prop} {e : Placed SyntaxError}

theorem behind {read : List (Placed Token)} (passes : p.Passes read q)
    (residual : Residual phrase (read.map (·.value)) q.current.value rest)
    (refused : q.Refuses rest e) : p.Refuses phrase e := by
  cases refused with
  | lexical failure => exact .lexical (passes.failure.symm.trans failure)
  | @syntactic _ before after bad ahead span blames wrong =>
    obtain ⟨others, begins⟩ := q.exists_ahead
    have values := congrArg (List.map (·.value)) (ahead.symm.trans begins)
    simp only [List.map_append, List.map_cons] at values
    have wrong := wrong.behind residual values
    rw [← List.map_append] at wrong
    exact .syntactic (by rw [passes.ahead, ahead, List.append_assoc]) span blames wrong

theorem initial {phrase : List Token → β → Prop} {first : List Token → α → Prop}
    (initial : Initial phrase first) (refused : p.Refuses first e) : p.Refuses phrase e := by
  cases refused with
  | lexical failure => exact .lexical failure
  | syntactic ahead span blames wrong => exact .syntactic ahead span blames (wrong.initial initial)

theorem map {phrase : List Token → α → Prop} (f : α → β) (refused : p.Refuses phrase e) :
    p.Refuses (fun ts b => ∃ a, b = f a ∧ phrase ts a) e := by
  refine refused.initial ⟨fun ts a held => ⟨[], f a, a, rfl, by rwa [List.append_nil]⟩, ?_⟩
  rintro ts b ⟨a, -, held⟩
  exact ⟨ts, [], a, (List.append_nil ts).symm, held⟩

/-- The current token is wrong if no phrase begins with it. -/
theorem here (proper : Proper phrase) (never : ∀ ts a, ¬ phrase (p.current.value :: ts) a)
    (span : e.span = p.current.span) (blames : e.value.Blames p.current.value) :
    p.Refuses phrase e := by
  obtain ⟨others, begins⟩ := p.exists_ahead
  have begins : p.ahead = [] ++ p.current :: others := begins
  refine .syntactic begins span blames ⟨proper.inhabited, fun ts us rest a held same => ?_⟩
  cases ts with
  | nil => exact proper.nonempty a held
  | cons t ts =>
    rw [(List.cons.inj same).1] at held
    exact never ts a held

end Refuses

namespace Step

/-- A reader recognizes phrases, and leaves given names in scope behind them. -/
def Recognizes (s : Step p α) (phrase : List Token → α → Prop) (scope : α → Scope) : Prop :=
  match s with
  | .ok a q _ =>
    (∃ read, p.Passes read q ∧ phrase (read.map (·.value)) a) ∧ q.symbols = scope a
  | .error e _ => p.Refuses phrase e

namespace Recognizes

theorem behind {phrase rest : List Token → β → Prop} {a : α} {shorter : q.size < p.size}
    {f : (a : α) → (q : Parser) → q.size < p.size → Step q β} {scope : β → Scope}
    {read : List (Placed Token)} (passes : p.Passes read q)
    (residual : Residual phrase (read.map (·.value)) q.current.value rest)
    (second : (f a q shorter).Recognizes rest scope) :
    ((Step.ok a q shorter).bind f).Recognizes phrase scope := by
  simp only [Step.bind]
  cases next : f a q shorter with
  | error e r =>
    rw [next] at second
    exact Refuses.behind passes residual second
  | ok b r shorter' =>
    rw [next] at second
    obtain ⟨⟨read', passes', held⟩, symbols⟩ := second
    refine ⟨⟨read ++ read', ⟨?_, passes'.failure.trans passes.failure⟩, ?_⟩, symbols⟩
    · rw [passes.ahead, passes'.ahead, List.append_assoc]
    · rw [List.map_append]
      exact residual.extend _ b held

theorem bind {first : List Token → α → Prop} {phrase : List Token → β → Prop} {s : Step p α}
    {f : (a : α) → (q : Parser) → q.size < p.size → Step q β} {scope : α → Scope}
    {scope' : β → Scope} (recognizes : s.Recognizes first scope) (initial : Initial phrase first)
    (behind : ∀ a q shorter (read : List (Placed Token)), first (read.map (·.value)) a →
      q.symbols = scope a →
      ∃ rest, Residual phrase (read.map (·.value)) q.current.value rest ∧
        (f a q shorter).Recognizes rest scope') : (s.bind f).Recognizes phrase scope' := by
  cases s with
  | error e r => exact Refuses.initial initial recognizes
  | ok a q shorter =>
    obtain ⟨⟨read, passes, held⟩, symbols⟩ := recognizes
    obtain ⟨rest, residual, second⟩ := behind a q shorter read held symbols
    exact .behind passes residual second

theorem map {phrase : List Token → α → Prop} {s : Step p α} {f : α → β} {scope : α → Scope}
    {scope' : β → Scope} (recognizes : s.Recognizes phrase scope)
    (symbols : ∀ a, scope' (f a) = scope a) :
    (s.map f).Recognizes (fun ts b => ∃ a, b = f a ∧ phrase ts a) scope' := by
  cases s with
  | error e r => exact Refuses.map f recognizes
  | ok a q shorter =>
    obtain ⟨⟨read, passes, held⟩, same⟩ := recognizes
    exact ⟨⟨read, passes, a, rfl, held⟩, same.trans (symbols a).symm⟩

theorem with_scope {phrase : List Token → α → Prop} {s : Step p α} {scope scope' : α → Scope}
    (recognizes : s.Recognizes phrase scope) (same : ∀ ts a, phrase ts a → scope a = scope' a) :
    s.Recognizes phrase scope' := by
  cases s with
  | error e r => exact recognizes
  | ok a q shorter =>
    obtain ⟨⟨read, passes, held⟩, symbols⟩ := recognizes
    exact ⟨⟨read, passes, held⟩, symbols.trans (same _ a held)⟩

theorem congr {phrase phrase' : List Token → α → Prop} {s : Step p α} {scope : α → Scope}
    (recognizes : s.Recognizes phrase scope) (same : ∀ ts a, phrase ts a ↔ phrase' ts a) :
    s.Recognizes phrase' scope := by
  have equal : phrase = phrase' := funext₂ fun ts a => propext (same ts a)
  rwa [← equal]

end Recognizes

end Step

/-- A token is taken if it is acceptable. What is behind it may go on, or may find it wrong. -/
theorem accept_bind_recognizes {acceptable : Token → Option α} {proper : acceptable .eof = none}
    {f : (a : Placed α) → (q : Parser) → q.size < p.size → Step q β}
    {phrase : List Token → β → Prop} {scope : β → Scope} (isProper : Proper phrase)
    (only : acceptable p.current.value = none → ∀ ts b, ¬ phrase (p.current.value :: ts) b)
    (behind : ∀ a q shorter, acceptable p.current.value = some a → q.symbols = p.symbols →
      (f ⟨a, p.current.span⟩ q shorter).Recognizes
        (fun ts b => phrase (p.current.value :: ts) b) scope ∨
      ∃ e r, f ⟨a, p.current.span⟩ q shorter = .error e r ∧ p.Refuses phrase e) :
    ((p.accept acceptable proper).bind f).Recognizes phrase scope := by
  rcases p.accept_cases acceptable proper with
    ⟨e, q, failure, taken⟩ | ⟨q, absent, taken⟩ | ⟨a, q, shorter, found, taken, passes, symbols⟩
  · rw [taken]
    exact .lexical failure
  · rw [taken]
    exact .here isProper (only absent) rfl rfl
  · rw [taken]
    rcases behind a q shorter found symbols with second | ⟨e, r, failed, refused⟩
    · exact .behind passes (.token isProper) second
    · simp only [Step.bind, failed]
      exact refused

end Parser

end NetSpec
