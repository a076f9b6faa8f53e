import Mathlib
import NetSpec.Script.Parser

/-!
# What a parser has in front of it

The tokens in front of a parser go up to the end of the text, unless the source fails before.
To take a token is to pass it or to meet the failure. How a parser keeps its tokens matters
only here: everything that is read passes the tokens that it is read from.
-/

namespace NetSpec.Parser

/-- The tokens up to the end of the text, if `t` is current and others are upcoming. Behind the
last token there is the end, unless the source fails there. -/
def upToEnd (failure : Option (Placed LexicalError)) (t : Placed Token) :
    List (Placed Token) → List (Placed Token)
  | [] => if t.value = .eof ∨ failure.isSome then [t] else [t, ⟨.eof, t.span⟩]
  | u :: us => if t.value = .eof then [t] else t :: upToEnd failure u us

/-- What a parser has in front of it. -/
def ahead (p : Parser) : List (Placed Token) := upToEnd p.failure p.current p.upcoming

/-- The tokens read on the way from one parser to another. -/
structure Passes (p : Parser) (read : List (Placed Token)) (q : Parser) : Prop where
  ahead : p.ahead = read ++ q.ahead
  failure : q.failure = p.failure

theorem exists_ahead (p : Parser) : ∃ rest, p.ahead = p.current :: rest := by
  simp only [ahead]
  cases p.upcoming with
  | nil =>
    simp only [upToEnd]
    split <;> exact ⟨_, rfl⟩
  | cons u us =>
    simp only [upToEnd]
    split <;> exact ⟨_, rfl⟩

/-- Behind the end of the text there is nothing. -/
theorem ahead_of_eof {p : Parser} (last : p.current.value = .eof) : p.ahead = [p.current] := by
  simp only [ahead]
  cases p.upcoming with
  | nil => exact if_pos (.inl last)
  | cons u us => exact if_pos last

/-- Taking a token either meets a failure or passes the token, unless it is the end. -/
theorem advance_cases (p : Parser) :
    (∃ e q, p.failure = some e ∧ p.advance = (.error e, q)) ∨
    (∃ q, p.advance = (.ok p.current, q) ∧ q.symbols = p.symbols ∧
      (p.current.value ≠ .eof → p.Passes [p.current] q)) := by
  obtain ⟨current, upcoming, failure, symbols, warnings⟩ := p
  cases upcoming with
  | cons u us => exact .inr ⟨_, rfl, rfl, fun more => ⟨if_neg more, rfl⟩⟩
  | nil =>
    cases failure with
    | some e => exact .inl ⟨e, _, rfl, rfl⟩
    | none =>
      refine .inr ⟨_, rfl, rfl, fun more => ⟨?_, rfl⟩⟩
      simp [Parser.ahead, upToEnd, more]

variable {p q : Parser} {α : Type}

namespace Step

theorem ofResult_of_ok {result : Except (Placed SyntaxError) α × Parser}
    {shorter : ∀ a q, result = (.ok a, q) → q.size < p.size} {a : α} {q : Parser}
    (ok : result = (.ok a, q)) : ofResult result shorter = .ok a q (shorter a q ok) := by
  subst ok
  rfl

theorem ofResult_of_error {result : Except (Placed SyntaxError) α × Parser}
    {shorter : ∀ a q, result = (.ok a, q) → q.size < p.size} {e : Placed SyntaxError}
    (failed : result = (.error e, q)) : ofResult result shorter = .error e q := by
  subst failed
  rfl

end Step

section Accept

variable {acceptable : Token → Option α} {proper : acceptable .eof = none} {t : Placed Token}

theorem accept_of_failed {e : Placed LexicalError} (failed : p.advance = (.error e, q)) :
    p.accept acceptable proper = .error (e.map .lexical) q := by
  have judged : judge acceptable p.advance = (.error (e.map .lexical), q) := by
    rw [failed, judge]
  exact Step.ofResult_of_error judged

theorem accept_of_refused (taken : p.advance = (.ok t, q)) (refused : acceptable t.value = none) :
    p.accept acceptable proper = .error (t.map .unexpectedToken) q := by
  have judged : judge acceptable p.advance = (.error (t.map .unexpectedToken), q) := by
    rw [taken, judge, refused]
  exact Step.ofResult_of_error judged

theorem accept_of_taken {a : α} (taken : p.advance = (.ok t, q))
    (found : acceptable t.value = some a) :
    ∃ shorter, p.accept acceptable proper = .ok ⟨a, t.span⟩ q shorter := by
  have judged : judge acceptable p.advance = (.ok ⟨a, t.span⟩, q) := by
    rw [taken, judge, found]
  exact ⟨_, Step.ofResult_of_ok judged⟩

end Accept

/-- Taking an acceptable token meets a failure behind it, or refuses it, or takes it. -/
theorem accept_cases (p : Parser) (acceptable : Token → Option α)
    (proper : acceptable .eof = none) :
    (∃ e q, p.failure = some e ∧ p.accept acceptable proper = .error (e.map .lexical) q) ∨
    (∃ q, acceptable p.current.value = none ∧
      p.accept acceptable proper = .error (p.current.map .unexpectedToken) q) ∨
    (∃ a q shorter, acceptable p.current.value = some a ∧
      p.accept acceptable proper = .ok ⟨a, p.current.span⟩ q shorter ∧
      p.Passes [p.current] q ∧ q.symbols = p.symbols) := by
  obtain ⟨e, q, failure, advanced⟩ | ⟨q, advanced, symbols, passes⟩ := p.advance_cases
  · exact .inl ⟨e, q, failure, accept_of_failed advanced⟩
  · right
    cases found : acceptable p.current.value with
    | none => exact .inl ⟨q, rfl, accept_of_refused advanced found⟩
    | some a =>
      have more : p.current.value ≠ .eof := by
        intro eof
        rw [eof, proper] at found
        cases found
      obtain ⟨shorter, taken⟩ := accept_of_taken advanced found
      exact .inr ⟨a, q, shorter, rfl, taken, passes more, symbols⟩

theorem eq_of_symbol? {t : Token} {name : String} (found : t.symbol? = some name) :
    t = .symbol name := by
  cases t with
  | symbol other =>
    cases found
    rfl
  | _ => cases found

/-- Taking a symbol meets a failure behind the token, or refuses it, or takes it. -/
theorem symbol_cases (p : Parser) :
    (∃ e q, p.failure = some e ∧ p.symbol = .error (e.map .lexical) q) ∨
    (∃ q, p.current.value.symbol? = none ∧
      p.symbol = .error (p.current.map .unexpectedToken) q) ∨
    (∃ name q shorter, p.current.value = .symbol name ∧
      p.symbol = .ok ⟨name, p.current.span⟩ q shorter ∧
      p.Passes [p.current] q ∧ q.symbols = p.symbols) := by
  rcases p.accept_cases Token.symbol? rfl with
    failed | refused | ⟨name, q, shorter, found, taken⟩
  · exact .inl failed
  · exact .inr (.inl refused)
  · exact .inr (.inr ⟨name, q, shorter, eq_of_symbol? found, taken⟩)

end NetSpec.Parser
