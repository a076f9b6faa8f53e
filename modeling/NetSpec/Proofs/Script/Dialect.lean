import NetSpec.Proofs.Script.Acceptance
import NetSpec.Proofs.Token.Dialect

/-!
# Scripts in the two dialects

The strict dialect refuses texts and never reads one differently. A text that is read without it
is refused for its first decimal with an exponent, since nothing before that is wrong, and if
there is none it is read as the same script.

A real may also be a symbol with a minus in front. Such a symbol is no number for the lexer, so the
dialect does not see its exponent. `Script.Derivation.realTokens` collects the tokens of a script
that are its reals.
-/

namespace NetSpec

/-! ### Refusing and agreeing -/

namespace Script

variable {lax strict : TokenStream} {script : Script}

/-- What is read in the strict dialect is read in the other one. -/
theorem ofStream_of_strict (restricts : lax.Restricts strict) (ends : strict.EndsOnce)
    (found : ofStream strict = .ok script) : ofStream lax = .ok script := by
  obtain ⟨complete, -⟩ := phrase_of_ok ends found
  cases restricts with
  | same _ => exact found
  | refused _ _ _ => cases complete
  | wrong _ => cases complete

/-- Where tokens of a script break off, the parser meets what broke them off. -/
theorem ofStream_of_break {before after : List (Placed Token)} {l : Placed LexicalError}
    {commands : List Command} (ends : TokenStream.EndsOnce ⟨before, some l⟩)
    (phrase : Phrase .empty ((before ++ after).map (·.value)) commands) :
    ofStream ⟨before, some l⟩ = .error (l.map .lexical) := by
  rcases ofStream_cases ends with
    ⟨_, _, complete, _⟩ | ⟨_, failed, same⟩ | ⟨e, read, bad, left, _, split, _, _, wrong⟩
  · cases complete
  · rw [failed, Option.some.inj same]
  · -- The script goes on behind a token that nothing can go on with.
    dsimp only at split
    rw [split, List.append_assoc, List.map_append] at phrase
    exact absurd (List.append_nil _) (wrong.dead _ [] _ _ phrase)

/-- What is read without the strict dialect is read in it, or refused for the first decimal with an
exponent. -/
theorem ofStream_strict (restricts : lax.Restricts strict) (ends : lax.EndsOnce)
    (strictEnds : strict.EndsOnce) (found : ofStream lax = .ok script) :
    lax.failure = none ∧ match lax.tokens.find? (·.value.hasExponent) with
      | none => ofStream strict = .ok script
      | some t => ∃ span, span.start = t.span.start ∧
        ofStream strict = .error ⟨.lexical (.strictDecimal t.value.throughMark), span⟩ := by
  obtain ⟨complete, phrase⟩ := phrase_of_ok ends found
  refine ⟨complete, ?_⟩
  cases restricts with
  | same plain =>
    have none : lax.tokens.find? (·.value.hasExponent) = none :=
      List.find?_eq_none.mpr fun t mem => by rw [plain t mem]; exact Bool.false_ne_true
    rw [none]
    exact found
  | @refused before after t span _ plain own start =>
    have first : (before ++ t :: after).find? (·.value.hasExponent) = some t := by
      refine List.find?_eq_some_iff_append.mpr ⟨own, before, after, rfl, fun u mem => ?_⟩
      rw [plain u mem]
      rfl
    dsimp only
    rw [first]
    exact ⟨span, start, ofStream_of_break strictEnds phrase⟩
  | wrong _ => cases complete

end Script

/-! ### Where reals come from -/

mutual

/-- The reals in a term, from left to right. -/
def Term.reals : Term → List Float
  | .apply _ args => Term.realsArgs args
  | .constant (.real x) => [x]
  | .constant (.int _) | .constant (.string _) | .identifier _ => []

def Term.realsArgs : List Term → List Float
  | [] => []
  | arg :: args => Term.reals arg ++ Term.realsArgs args

end

/-- The reals in the terms that commands assert. -/
def Script.reals (commands : List Command) : List Float :=
  (commands.filterMap Command.asserted?).flatMap Term.reals

theorem Script.reals_append (commands more : List Command) :
    reals (commands ++ more) = reals commands ++ reals more := by
  rw [reals, List.filterMap_append, List.flatMap_append]
  rfl

variable {scope : Scope}

/-- A symbol is a real if it stands for a number. -/
def Scope.Reading.reals {name : String} {t : Term} : scope.Reading name t → List (Token × Float)
  | .number (x := x) _ _ _ => [(.symbol name, x)]
  | .name _ _ | .opposite _ _ _ => []

mutual

/-- The tokens that are the reals of a term, each with its value. -/
def Term.Derivation.reals {ts : List Token} {t : Term} :
    t.Derivation scope ts → List (Token × Float)
  | .literal (t := t) (c := .real x) _ => [(t, x)]
  | .literal (c := .int _) _ | .literal (c := .string _) _ => []
  | .symbol reading => reading.reals
  | .apply _ own => own.reals

def Term.ArgsDerivation.reals {ts : List Token} {args : List Term} :
    Term.ArgsDerivation scope ts args → List (Token × Float)
  | .one last => last.reals
  | .more first others => first.reals ++ others.reals

end

def Command.Derivation.reals {ts : List Token} {command : Command} :
    command.Derivation scope ts → List (Token × Float)
  | .assert own => own.reals
  | .declareConst _ => []

/-- The tokens that are the reals of a script, each with its value, from left to right. -/
def Script.Derivation.reals {scope : Scope} {ts : List Token} {commands : List Command} :
    Script.Derivation scope ts commands → List (Token × Float)
  | .nil => []
  | .cons first others => first.reals ++ others.reals

/-- How a token is a real: a number of the lexer, or a symbol with a minus in front that is read as
a number. -/
inductive Token.IsReal : Token → Float → Prop where
  | literal {t : Token} {x : Float} (number : t.kind = .numeral ∨ t.kind = .decimal)
      (value : Constant.ofToken? t = some (.real x)) : IsReal t x
  | symbol {name : String} {rest : List Char} {x : Float} (minus : name.toList = '-' :: rest)
      (starts : startsNumber rest = true) (value : Binary64.ofText? name = some x) :
      IsReal (.symbol name) x

theorem Constant.ofMarked?_ne_real (value : List Char → Nat) (text : String) (x : Float) :
    ofMarked? value text ≠ some (.real x) := by
  intro read
  simp only [ofMarked?, ofNat?] at read
  split at read
  · cases read
  · split at read <;> cases read

/-- Only numerals and decimals are real literals. -/
theorem Token.isReal_of_literal {t : Token} {x : Float}
    (value : Constant.ofToken? t = some (.real x)) : IsReal t x := by
  refine .literal ?_ value
  cases t with
  | numeral _ => exact .inl rfl
  | decimal _ => exact .inr rfl
  | hexadecimal text => exact absurd value (Constant.ofMarked?_ne_real _ _ _)
  | binary text => exact absurd value (Constant.ofMarked?_ne_real _ _ _)
  | eof | openParen | closeParen | symbol | string => cases value

/-- What the tokens of something say about its reals: they are tokens of it that are reals, and
their values are all the reals there are. -/
structure RealsOf (ts : List Token) (reals : List Float) (found : List (Token × Float)) : Prop where
  values : found.map Prod.snd = reals
  tokens : ∀ p ∈ found, p.1 ∈ ts ∧ p.1.IsReal p.2

namespace RealsOf

variable {ts us : List Token} {reals more : List Float} {found others : List (Token × Float)}

theorem nil (ts : List Token) : RealsOf ts [] [] := ⟨rfl, List.forall_mem_nil _⟩

theorem single {t : Token} {x : Float} (isReal : t.IsReal x) : RealsOf [t] [x] [(t, x)] :=
  ⟨rfl, List.forall_mem_singleton.mpr ⟨List.mem_singleton_self t, isReal⟩⟩

theorem append (first : RealsOf ts reals found) (second : RealsOf us more others) :
    RealsOf (ts ++ us) (reals ++ more) (found ++ others) where
  values := by rw [List.map_append, first.values, second.values]
  tokens := List.forall_mem_append.mpr
    ⟨fun p mem => ⟨List.mem_append_left us (first.tokens p mem).1, (first.tokens p mem).2⟩,
      fun p mem => ⟨List.mem_append_right ts (second.tokens p mem).1, (second.tokens p mem).2⟩⟩

theorem mono (own : RealsOf ts reals found) (inside : ts ⊆ us) : RealsOf us reals found :=
  ⟨own.values, fun p mem => ⟨inside (own.tokens p mem).1, (own.tokens p mem).2⟩⟩

end RealsOf

theorem subset_parens (first : Token) (ts : List Token) :
    ts ⊆ .openParen :: first :: (ts ++ [.closeParen]) :=
  fun _ mem => List.mem_cons_of_mem _ (List.mem_cons_of_mem _ (List.mem_append_left _ mem))

theorem Scope.Reading.realsOf {name : String} {t : Term} (reading : scope.Reading name t) :
    RealsOf [.symbol name] t.reals reading.reals := by
  cases reading with
  | name _ _ => exact .nil _
  | number minus starts value => exact .single (.symbol minus starts value)
  | opposite _ _ _ => exact .nil _

mutual

theorem Term.Derivation.realsOf {ts : List Token} {t : Term} (d : t.Derivation scope ts) :
    RealsOf ts t.reals d.reals := by
  cases d with
  | @literal t c value =>
    cases c with
    | real x => exact .single (Token.isReal_of_literal value)
    | int n => exact .nil _
    | string s => exact .nil _
  | symbol reading => exact reading.realsOf
  | @apply _ inner _ _ own => exact own.realsOf.mono (subset_parens _ inner)

theorem Term.ArgsDerivation.realsOf {ts : List Token} {args : List Term}
    (d : Term.ArgsDerivation scope ts args) : RealsOf ts (Term.realsArgs args) d.reals := by
  cases d with
  | @one ts t last =>
    rw [Term.realsArgs, Term.realsArgs, List.append_nil]
    exact last.realsOf
  | more first others => exact first.realsOf.append others.realsOf

end

theorem Command.Derivation.realsOf {ts : List Token} {command : Command}
    (d : command.Derivation scope ts) : RealsOf ts (Script.reals [command]) d.reals := by
  cases d with
  | declareConst _ => exact .nil _
  | @assert inner t own =>
    have alone : Script.reals [.assert t] = t.reals := List.append_nil _
    rw [alone]
    exact own.realsOf.mono (subset_parens _ inner)

/-- The tokens of a script that are its reals, command by command. -/
theorem Script.Derivation.realsOf {ts : List Token} {commands : List Command}
    (d : Script.Derivation scope ts commands) : RealsOf ts (Script.reals commands) d.reals := by
  induction d with
  | nil => exact .nil _
  | @cons _ _ _ command commands first _ ih =>
    have split := Script.reals_append [command] commands
    rw [List.singleton_append] at split
    rw [split]
    exact first.realsOf.append ih

namespace Specification

/-- The strict dialect only refuses. What it reads is read without it as the same script. A text
that is read without it is read in it, unless one of its decimals has an exponent: then the first
such decimal is refused where it starts, with its text up to its mark. -/
theorem parse_strict (text : String) :
    (∀ script, parse (.ofText text) true = .ok script →
      parse (.ofText text) false = .ok script) ∧
    ∀ script, parse (.ofText text) false = .ok script →
      ∃ ts, (Source.ofText text).tokens false = .ok ts ∧
        match ts.find? (·.value.hasExponent) with
        | none => parse (.ofText text) true = .ok script
        | some t => ∃ span, span.start = t.span.start ∧ parse (.ofText text) true =
            .error (.lexical ⟨.strictDecimal t.value.throughMark, span⟩) := by
  have restricts := Source.stream_restricts text
  have ends (strict : Bool) : (Lexer.new (.ofText text) strict).stream.EndsOnce :=
    Lexer.endsOnce_stream ..
  constructor
  · intro script parsed
    rw [parse_eq_ok_iff, Script.ofSource_eq_ofStream] at parsed ⊢
    exact Script.ofStream_of_strict restricts (ends true) parsed
  · intro script parsed
    rw [parse_eq_ok_iff, Script.ofSource_eq_ofStream] at parsed
    obtain ⟨complete, strictly⟩ := Script.ofStream_strict restricts (ends false) (ends true) parsed
    refine ⟨(Lexer.new (.ofText text) false).stream.tokens, ?_, ?_⟩
    · rw [Source.tokens, TokenStream.toExcept, complete]
    · split at strictly
      next => exact parse_eq_ok_iff.mpr ((Script.ofSource_eq_ofStream _ _).trans strictly)
      next t _ =>
        obtain ⟨span, start, failed⟩ := strictly
        refine ⟨span, start, ?_⟩
        rw [parse, Script.ofSource_eq_ofStream, failed]
        rfl

/-- Computing the tokens of a text finds them with their places. -/
theorem exists_tokens {text : String} {strict : Bool} {values : List Token}
    (computed : ((Source.ofText text).tokens strict).toOption.map (·.map (·.value)) =
      some values) :
    ∃ ts, (Source.ofText text).tokens strict = .ok ts ∧ ts.map (·.value) = values := by
  cases read : (Source.ofText text).tokens strict with
  | error l =>
    rw [read] at computed
    cases computed
  | ok ts =>
    rw [read] at computed
    exact ⟨ts, rfl, Option.some.inj computed⟩

/-- The mark of the first exponent is where the strict dialect stops. -/
theorem parse_strict_half : ∃ script,
    parse (.ofText "(assert (<= 1.0 2.5E3 1e1))") false = .ok script ∧
    ∃ span, span.start = ⟨0, 16⟩ ∧ parse (.ofText "(assert (<= 1.0 2.5E3 1e1))") true =
      .error (.lexical ⟨.strictDecimal "2.5E", span⟩) := by
  obtain ⟨script, parsed, -, -⟩ : ∃ script,
      parse (.ofText "(assert (<= 1.0 2.5E3 1e1))") false = .ok script ∧
        script.Writable false ∧ script.text = "(assert (<= 1.0 2500.0 10.0))\n" :=
    exists_parsed (by decide +kernel)
  obtain ⟨ts, read, strictly⟩ := (parse_strict _).2 script parsed
  have computed : ((Source.ofText "(assert (<= 1.0 2.5E3 1e1))").tokens false).toOption.bind
      (·.find? (·.value.hasExponent)) =
        some ⟨.decimal "2.5E3", ⟨⟨0, 16⟩, ⟨0, 20⟩, ⟨0, 21⟩⟩⟩ := by decide +kernel
  rw [read] at computed
  change ts.find? (·.value.hasExponent) = _ at computed
  rw [computed] at strictly
  exact ⟨script, parsed, strictly⟩

/-- In a script of the strict dialect the token of a real has an exponent only if it is a symbol: a
number with a minus in front. -/
theorem parse_strict_reals {text : String} {script : Script}
    (parsed : parse (.ofText text) true = .ok script) :
    ∃ ts, (Source.ofText text).tokens true = .ok ts ∧
      ∃ d : Script.Derivation .empty (ts.map (·.value)) script.commands,
        d.reals.map Prod.snd = Script.reals script.commands ∧
        ∀ p ∈ d.reals, p.1.hasMark = true → ∃ name rest, p.1 = .symbol name ∧
          name.toList = '-' :: rest ∧ startsNumber rest = true ∧
          Binary64.ofText? name = some p.2 := by
  have ends : (Lexer.new (.ofText text) true).stream.EndsOnce := Lexer.endsOnce_stream ..
  have run := Lexer.run_stream true text.toList (.point .origin)
  rw [parse_eq_ok_iff, Script.ofSource_eq_ofStream] at parsed
  obtain ⟨complete, ⟨d⟩⟩ := Script.phrase_of_ok ends parsed
  refine ⟨(Lexer.new (.ofText text) true).stream.tokens, ?_, d, d.realsOf.values, ?_⟩
  · rw [Source.tokens, TokenStream.toExcept, complete]
  · rintro ⟨t, x⟩ mem marked
    obtain ⟨listed, isReal⟩ := d.realsOf.tokens (t, x) mem
    cases isReal with
    | literal number _ => cases marked.symm.trans (run.hasMark_of_strict t listed number)
    | symbol minus starts value => exact ⟨_, _, rfl, minus, starts, value⟩

/-- Both reals are found, and the one with an exponent has a minus. -/
theorem parse_strict_reals_bounds : ∃ script,
    parse (.ofText "(assert (<= 0.5 -1e5))") true = .ok script ∧
    ∃ ts, (Source.ofText "(assert (<= 0.5 -1e5))").tokens true = .ok ts ∧
      ∃ d : Script.Derivation .empty (ts.map (·.value)) script.commands,
        d.reals.map Prod.snd = Script.reals script.commands ∧
        ∀ p ∈ d.reals, p.1.hasMark = true → ∃ name rest, p.1 = .symbol name ∧
          name.toList = '-' :: rest ∧ startsNumber rest = true ∧
          Binary64.ofText? name = some p.2 := by
  obtain ⟨script, parsed, -, -⟩ : ∃ script,
      parse (.ofText "(assert (<= 0.5 -1e5))") true = .ok script ∧ script.Writable true ∧
        script.text = "(assert (<= 0.5 -100000.0))\n" :=
    exists_parsed (by decide +kernel)
  exact ⟨script, parsed, parse_strict_reals parsed⟩

theorem parse_of_derivation {text : String} {strict : Bool} {ts : List (Placed Token)}
    {commands : List Command} (read : (Source.ofText text).tokens strict = .ok ts)
    (d : Script.Derivation .empty (ts.map (·.value)) commands) :
    parse (.ofText text) strict = .ok ⟨commands⟩ := by
  rw [parse_eq_ok_iff, Script.ofSource_eq_ofStream]
  rw [Source.tokens] at read
  generalize (Lexer.new (.ofText text) strict).stream = s at read ⊢
  obtain ⟨tokens, failure⟩ := s
  cases failure with
  | none =>
    cases read
    exact Script.ofStream_of_phrase ⟨d⟩
  | some l => cases read

/-- A number with a minus in front keeps its exponent in the strict dialect. -/
theorem parse_strict_minus : ∃ script ts,
    parse (.ofText "(assert -1e5)") true = .ok script ∧
    (Source.ofText "(assert -1e5)").tokens true = .ok ts ∧
    ∃ d : Script.Derivation .empty (ts.map (·.value)) script.commands,
      ∃ p ∈ d.reals, p.1.hasMark = true := by
  obtain ⟨x, value⟩ : ∃ x, Binary64.ofText? "-1e5" = some x :=
    Option.isSome_iff_exists.mp (by decide +kernel)
  obtain ⟨ts, read, values⟩ : ∃ ts, (Source.ofText "(assert -1e5)").tokens true = .ok ts ∧
      ts.map (·.value) = [.openParen, .symbol "assert", .symbol "-1e5", .closeParen, .eof] :=
    exists_tokens (by decide +kernel)
  have marked : (Token.symbol "-1e5").hasMark = true := by decide +kernel
  obtain ⟨d, found⟩ : ∃ d : Script.Derivation .empty (ts.map (·.value))
      [.assert (.constant (.real x))], ∃ p ∈ d.reals, p.1.hasMark = true := by
    rw [values]
    exact ⟨.cons (.assert (.symbol (.number rfl rfl value))) .nil, (.symbol "-1e5", x),
      List.mem_singleton_self _, marked⟩
  exact ⟨⟨_⟩, ts, parse_of_derivation read d, read, d, found⟩

end Specification

end NetSpec
