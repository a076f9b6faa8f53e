import NetSpec.Script.Literal
import NetSpec.Script.Symbol
import NetSpec.Token.Lexer

/-!
# Reading scripts

A parser looks at one token and has the others still to come. Taking a token makes the next
one current, and an error of the lexer is met there, before the token taken is judged. Once
nothing is left the end of the text is current for ever.

A `Step` is the outcome of a reader that succeeds only by taking something: it carries the
proof that the parser left behind has less to read. Recursion on what is left therefore ends
on every input. A step that fails says in which state it leaves the parser, which may go on
being used.
-/

namespace NetSpec

/-- What a parser remarks without refusing it. -/
inductive Warning where
  | literalNegation (name : String)
deriving DecidableEq, Repr

def Warning.message : Warning → String
  | literalNegation name =>
    "literal negation `" ++ name ++ "` does not strictly follow SMT-LIB"

/-- The token at hand, the tokens and the error still to come, the names in scope, and the
remarks made, the latest first. -/
structure Parser where
  current : Placed Token
  upcoming : List (Placed Token)
  failure : Option (Placed LexicalError)
  symbols : Scope
  warnings : List Warning

namespace Parser

/-- How many tokens there are to take. -/
def size (p : Parser) : Nat :=
  p.upcoming.length + if p.current.value = .eof then 0 else 1

/-- Take the current token and make the next one current. An error of the lexer is met once;
then, as after the last token, the end of the text follows at the place of the current
token. -/
def advance (p : Parser) : Except (Placed LexicalError) (Placed Token) × Parser :=
  match p.upcoming, p.failure with
  | t :: ts, _ => (.ok p.current, { p with current := t, upcoming := ts })
  | [], some e => (.error e, { p with failure := none })
  | [], none => (.ok p.current, { p with current := ⟨.eof, p.current.span⟩ })

theorem size_advance {p q : Parser} {t : Placed Token} (h : p.advance = (.ok t, q))
    (more : p.current.value ≠ .eof) : q.size < p.size := by
  unfold advance at h
  split at h
  next next rest tokens =>
    simp only [Prod.mk.injEq] at h
    rw [← h.2]
    simp only [size, tokens, more, List.length_cons, if_false]
    split <;> omega
  next => simp at h
  next =>
    simp only [Prod.mk.injEq] at h
    simp [← h.2, size, more]

/-- The outcome of a reader that takes at least one token when it succeeds. -/
inductive Step (p : Parser) (α : Type) where
  | ok (value : α) (rest : Parser) (shorter : rest.size < p.size)
  | error (e : Placed SyntaxError) (rest : Parser)

namespace Step

variable {p : Parser} {α β : Type}

/-- A step from a result and the reason why success takes something. -/
def ofResult (result : Except (Placed SyntaxError) α × Parser)
    (shorter : ∀ a q, result = (.ok a, q) → q.size < p.size) : Step p α :=
  match result, shorter with
  | (.error e, q), _ => .error e q
  | (.ok a, q), shorter => .ok a q (shorter a q rfl)

/-- Go on behind a step. -/
def bind (s : Step p α) (f : (a : α) → (q : Parser) → q.size < p.size → Step q β) : Step p β :=
  match s with
  | .error e q => .error e q
  | .ok a q h =>
    match f a q h with
    | .error e r => .error e r
    | .ok b r h' => .ok b r (Nat.lt_trans h' h)

/-- Change the value read. -/
def map (f : α → β) : Step p α → Step p β
  | .error e q => .error e q
  | .ok a q h => .ok (f a) q h

/-- Judge the value read; the parser stays behind it. -/
def check (s : Step p α) (f : α → Except (Placed SyntaxError) β) : Step p β :=
  match s with
  | .error e q => .error e q
  | .ok a q h =>
    match f a with
    | .error e => .error e q
    | .ok b => .ok b q h

end Step

/-- Judge a token that has been taken, with the parser behind it. -/
def judge {α : Type} (accept : Token → Option α) :
    Except (Placed LexicalError) (Placed Token) × Parser →
      Except (Placed SyntaxError) (Placed α) × Parser
  | (.error e, q) => (.error (e.map .lexical), q)
  | (.ok t, q) =>
    match accept t.value with
    | some a => (.ok ⟨a, t.span⟩, q)
    | none => (.error (t.map .unexpectedToken), q)

theorem size_judge_advance {α : Type} {p q : Parser} {accept : Token → Option α}
    {a : Placed α} (proper : accept .eof = none) (h : judge accept p.advance = (.ok a, q)) :
    q.size < p.size := by
  cases advanced : p.advance with
  | mk result r =>
    rw [advanced] at h
    cases result with
    | error e => simp [judge] at h
    | ok t =>
      have same : t = p.current := by
        unfold advance at advanced
        split at advanced
        next =>
          cases advanced
          rfl
        next => cases advanced
        next =>
          cases advanced
          rfl
      unfold judge at h
      split at h
      next e _ eq => simp at eq
      next t' q' eq =>
        simp only [Prod.mk.injEq, Except.ok.injEq] at eq
        obtain ⟨rfl, rfl⟩ := eq
        split at h
        next found =>
          simp only [Prod.mk.injEq] at h
          rw [← h.2]
          refine size_advance advanced fun eof => ?_
          rw [same, eof, proper] at found
          simp at found
        next => simp at h

/-- Take the current token if it is acceptable, which the end of the text is not. -/
def accept {α : Type} (p : Parser) (accept : Token → Option α) (proper : accept .eof = none) :
    Step p (Placed α) :=
  .ofResult (judge accept p.advance) fun _ _ => size_judge_advance proper

/-- Take the current token and refuse it. -/
def refuse {α : Type} (p : Parser) : Step p α :=
  (p.accept (fun _ => none) rfl).map (·.value)

/-- Take a token of a given kind; another one is not taken. -/
def expect (p : Parser) (kind : TokenKind) (proper : kind ≠ .eof) : Step p (Placed Token) :=
  if p.current.value.kind = kind then
    p.accept (fun t => if t.kind = kind then some t else none) (if_neg (Ne.symm proper))
  else .error ⟨.expected kind p.current.value, p.current.span⟩ p

/-- Take a symbol. -/
def symbol (p : Parser) : Step p (Placed String) :=
  p.accept Token.symbol? rfl

/-- Take a literal and find its value. -/
def literal (p : Parser) : Step p Term :=
  (p.accept (fun t => if t.kind.isLiteral then some t else none) rfl).check fun t =>
    match Constant.ofToken? t.value with
    | some c => .ok (.constant c)
    | none => .error (t.map .invalidLiteral)

/-- Remark on a symbol that begins with a minus. -/
def remark (p : Parser) (name : String) : Parser :=
  match name.toList with
  | '-' :: _ => { p with warnings := .literalNegation name :: p.warnings }
  | _ => p

@[simp] theorem size_remark (p : Parser) (name : String) : (p.remark name).size = p.size := by
  unfold remark
  split <;> rfl

/-- Bring a name into scope. -/
def declare (p : Parser) (name sort : String) : Parser :=
  { p with symbols := p.symbols.declare name sort }

@[simp] theorem size_declare (p : Parser) (name sort : String) :
    (p.declare name sort).size = p.size := rfl

/-- Take a symbol that stands for a term. -/
def symbolTerm (p : Parser) : Step p Term :=
  match p.symbol with
  | .error e q => .error e q
  | .ok name q h =>
    match q.symbols.interpret name.value with
    | .error e => .error ⟨e, name.span⟩ (q.remark name.value)
    | .ok t => .ok t (q.remark name.value) (by simpa using h)

mutual

/-- Take a term. -/
def term (p : Parser) : Step p Term :=
  match p.current.value.kind with
  | .symbol => p.symbolTerm
  | .openParen =>
    (p.expect .openParen (by decide)).bind fun _ p₁ _ =>
      p₁.symbol.bind fun head p₂ _ =>
        match p₂.symbols.resolve head.value with
        | .error e => .error ⟨e, head.span⟩ p₂
        | .ok function => (args p₂).map (.apply function)
  | .eof | .closeParen => p.refuse
  | .numeral | .decimal | .hexadecimal | .binary | .string => p.literal
termination_by 2 * p.size

/-- Take one term or more, and the closing parenthesis behind them. -/
def args (p : Parser) : Step p (List Term) :=
  (term p).bind fun t q _ =>
    if q.current.value.kind = .closeParen then
      (q.expect .closeParen (by decide)).map fun _ => [t]
    else (args q).map (t :: ·)
termination_by 2 * p.size + 1

end

/-- Take a declaration behind its keyword. The name is in scope as soon as its sort is read. -/
def declaration (p : Parser) : Step p Command :=
  p.symbol.bind fun name p₁ _ =>
    match p₁.symbol with
    | .error e p₂ => .error e p₂
    | .ok sort p₂ h =>
      match sort? sort.value with
      | none => .error (sort.map .undeclaredSort) p₂
      | some s => .ok (.declareConst name.value s) (p₂.declare name.value s) (by simpa using h)

/-- Take a command. -/
def command (p : Parser) : Step p Command :=
  (p.expect .openParen (by decide)).bind fun _ p₁ _ =>
    p₁.symbol.bind fun keyword p₂ _ =>
      let body : Step p₂ Command :=
        if keyword.value = "assert" then p₂.term.map .assert
        else if keyword.value = "declare-const" then p₂.declaration
        else .error (keyword.map .unknownCommand) p₂
      body.bind fun c p₃ _ => (p₃.expect .closeParen (by decide)).map fun _ => c

/-- Take all commands up to the end of the text. -/
def commands (p : Parser) : Except (Placed SyntaxError) (List Command) × Parser :=
  if p.current.value = .eof then (.ok [], p)
  else
    match p.command with
    | .error e q => (.error e, q)
    | .ok c q _ =>
      let (rest, r) := q.commands
      (rest.map (c :: ·), r)
termination_by p.size

/-- A parser at the first token of a stream. -/
def ofStream (s : TokenStream) : Except (Placed SyntaxError) Parser :=
  match advance ⟨⟨.eof, .point .origin⟩, s.tokens, s.failure, .empty, []⟩ with
  | (.error e, _) => .error (e.map .lexical)
  | (.ok _, p) => .ok p

end Parser

/-- Read a script, and the remarks made on the way, the latest first. -/
def Script.read (source : Source) (strict : Bool) :
    Except (Placed SyntaxError) Script × List Warning :=
  match Parser.ofStream (Lexer.new source strict).stream with
  | .error e => (.error e, [])
  | .ok p =>
    let (commands, q) := p.commands
    (commands.map Script.mk, q.warnings)

/-- The script that a source holds. -/
def Script.ofSource (source : Source) (strict : Bool) : Except (Placed SyntaxError) Script :=
  (Script.read source strict).1

end NetSpec
