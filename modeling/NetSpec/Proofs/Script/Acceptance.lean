import NetSpec.Proofs.Script.RoundTrip
import NetSpec.Proofs.Token.Errors

/-!
# The scripts and the errors of a text

A text holds a script if and only if its tokens derive it, and the derivation is the only one
of these tokens. A text without a script fails at the first place where it goes wrong: where
its characters are no token, or at a token that no script can have behind those before it.
-/

namespace NetSpec

namespace Error

theorem ofSyntax_lexical {l : Placed LexicalError} (inMemory : ∀ r, l.value ≠ .read r) :
    ofSyntax (l.map .lexical) = .lexical l := by
  obtain ⟨error, span⟩ := l
  cases error with
  | read r => exact absurd rfl (inMemory r)
  | _ => rfl

theorem ofSyntax_of_blames {e : Placed SyntaxError} {t : Token} (blames : e.value.Blames t) :
    ofSyntax e = .syntactic e := by
  obtain ⟨error, span⟩ := e
  cases error with
  | lexical error => exact blames.elim
  | _ => rfl

end Error

namespace Specification

/-- A text is parsed as a script if and only if its tokens derive the script, and tokens have
at most one derivation. -/
theorem parse_eq_ok_iff_derivation (text : String) (strict : Bool) (script : Script) :
    (parse (.ofText text) strict = .ok script ↔
      ∃ ts, (Source.ofText text).tokens strict = .ok ts ∧
        Nonempty (Script.Derivation .empty (ts.map (·.value)) script.commands)) ∧
    ∀ ts, Subsingleton (Σ commands, Script.Derivation .empty ts commands) := by
  refine ⟨?_, fun ts => ⟨fun ⟨commands, d⟩ ⟨commands', d'⟩ => ?_⟩⟩
  · have ends : (Lexer.new (.ofText text) strict).stream.EndsOnce := Lexer.endsOnce_stream ..
    rw [parse_eq_ok_iff, Script.ofSource_eq_ofStream, Source.tokens]
    generalize (Lexer.new (.ofText text) strict).stream = s at ends
    obtain ⟨tokens, failure⟩ := s
    constructor
    · intro parsed
      rcases Script.ofStream_cases ends with
        ⟨script', found, rfl, phrase⟩ | ⟨l, failed, -⟩ | ⟨e, _, _, _, failed, -⟩
      · cases found.symm.trans parsed
        exact ⟨tokens, rfl, phrase⟩
      · cases failed.symm.trans parsed
      · cases failed.symm.trans parsed
    · rintro ⟨ts, ok, phrase⟩
      cases failure with
      | none =>
        cases ok
        exact Script.ofStream_of_phrase phrase
      | some l => cases ok
  · obtain ⟨rfl, alike⟩ := d.unique d' rfl
    rw [eq_of_heq alike]

/-- A text that is not parsed is refused for the first thing that is wrong with it. An error of
the lexer is the one that ends the tokens of the text. Any other error is at one of the tokens
and speaks of it; those before it begin some tokens that are accepted, and with it they begin
none. -/
theorem parse_error_at_first_wrong {text : String} {strict : Bool} {e : Error}
    (failed : parse (.ofText text) strict = .error e) :
    (∀ l, e = .lexical l → (Source.ofText text).tokens strict = .error l) ∧
    (∀ ts, (Source.ofText text).tokens strict = .ok ts → ∀ l, e ≠ .lexical l) ∧
    (∀ s, e = .syntactic s → ∃ before bad after,
      (Lexer.new (.ofText text) strict).stream.tokens = before ++ bad :: after ∧
      bad.span = s.span ∧ s.value.Blames bad.value ∧
      (∃ rest, Script.Accepted (before.map (·.value) ++ rest)) ∧
      ∀ rest, ¬ Script.Accepted (before.map (·.value) ++ bad.value :: rest)) ∧
    ((∃ l, e = .lexical l) ∨ ∃ s, e = .syntactic s) := by
  have ends : (Lexer.new (.ofText text) strict).stream.EndsOnce := Lexer.endsOnce_stream ..
  rw [parse, Script.ofSource_eq_ofStream] at failed
  rw [Source.tokens]
  rcases Script.ofStream_cases ends with ⟨script, found, -⟩ | ⟨l, error, failure⟩ |
    ⟨s, before, bad, after, error, split, span, blames, wrong⟩
  · rw [found] at failed
    cases failed
  · rw [error] at failed
    have inMemory (r : ReadError) : l.value ≠ .read r := by
      intro same
      have run := Lexer.run_stream strict text.toList (.point .origin)
      exact run.ne_read r ((congrArg (Option.map (·.value)) failure).trans (congrArg some same))
    have lexical : Error.lexical l = e := by
      rw [← Error.ofSyntax_lexical inMemory]
      exact Except.error.inj failed
    subst lexical
    refine ⟨?_, ?_, ?_, .inl ⟨l, rfl⟩⟩
    · rintro _ ⟨⟩
      rw [TokenStream.toExcept, failure]
    · intro ts ok
      rw [TokenStream.toExcept, failure] at ok
      cases ok
    · rintro _ ⟨⟩
  · rw [error] at failed
    have syntactic : Error.syntactic s = e := by
      rw [← Error.ofSyntax_of_blames blames]
      exact Except.error.inj failed
    subst syntactic
    refine ⟨?_, ?_, ?_, .inr ⟨s, rfl⟩⟩
    · rintro _ ⟨⟩
    · rintro _ _ _ ⟨⟩
    rintro _ ⟨⟩
    exact ⟨before, bad, after, split, span.symm, blames, Script.exists_accepted wrong,
      Script.not_accepted (ends.eof_notMem split) wrong⟩

/-- Computing the cause of a failure finds its error. -/
theorem exists_syntactic {source : Source} {strict : Bool} {cause : SyntaxError}
    (computed : (match parse source strict with
      | .error (.syntactic s) => decide (s.value = cause)
      | _ => false) = true) :
    ∃ s, parse source strict = .error (.syntactic s) ∧ s.value = cause := by
  split at computed
  next s failed => exact ⟨s, failed, of_decide_eq_true computed⟩
  next => cases computed

/-- An operand that is not declared is wrong at its place, whatever its sign. -/
theorem parse_error_at_undeclared : ∃ s,
    parse (.ofText "(declare-const X Real)\n(assert (<= 1 X -Y))") true = .error (.syntactic s) ∧
    s.value = .undeclaredIdentifier "Y" ∧
    ∃ before bad after,
      (Lexer.new (.ofText "(declare-const X Real)\n(assert (<= 1 X -Y))") true).stream.tokens =
        before ++ bad :: after ∧
      bad.span = s.span ∧ s.value.Blames bad.value ∧
      (∃ rest, Script.Accepted (before.map (·.value) ++ rest)) ∧
      ∀ rest, ¬ Script.Accepted (before.map (·.value) ++ bad.value :: rest) := by
  obtain ⟨s, failed, cause⟩ : ∃ s,
      parse (.ofText "(declare-const X Real)\n(assert (<= 1 X -Y))") true =
        .error (.syntactic s) ∧ s.value = .undeclaredIdentifier "Y" :=
    exists_syntactic (by decide +kernel)
  exact ⟨s, failed, cause, (parse_error_at_first_wrong failed).2.2.1 s rfl⟩

end Specification

end NetSpec
