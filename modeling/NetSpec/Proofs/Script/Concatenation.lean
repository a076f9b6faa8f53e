import NetSpec.Proofs.Script.RoundTrip

/-!
# One script behind another

Two texts with a line break between them have the tokens of both. The break ends a comment at the
end of the first text and goes on with no lexeme, so no lexeme stands across it. The second text
is then read with more names in scope than it has alone. A name that is in scope anyway means the
same among others, and a declaration hides no meaning, as terms keep the names themselves. So the
commands of both texts are read as they are read apart.
-/

namespace NetSpec

/-! ### Two texts -/

section Texts

variable {strict : Bool} {cs ds gap : List Char} {ts us : List Token} {c : Char}

/-- A line break ends whatever gap it is behind. -/
theorem IsGap.concat_lineEnd {last : Bool} (isGap : IsGap last gap) (blank : isBlank c = true)
    (lineEnd : isLineEnd c = true) : IsGap false (gap ++ [c]) := by
  induction isGap with
  | nil => exact .blank blank .nil
  | blank own _ ih => exact .blank own ih
  | comment inside ends _ ih =>
    rw [List.cons_append, List.append_assoc]
    exact .comment inside ends ih
  | lastComment _ inside => exact .comment inside lineEnd .nil

theorem IsGap.append {last : Bool} {more : List Char} (first : IsGap false gap)
    (second : IsGap last more) : IsGap last (gap ++ more) := by
  induction first with
  | nil => exact second
  | blank own _ ih => exact .blank own ih
  | comment inside ends _ ih =>
    rw [List.cons_append, List.append_assoc]
    exact .comment inside ends ih
  | lastComment isLast _ => cases isLast

/-- A gap in front of a text belongs to its first gap. -/
theorem Splits.gap_append (splits : Splits strict ds us) (isGap : IsGap false gap) :
    Splits strict (gap ++ ds) us := by
  cases splits with
  | last others => exact .last (isGap.append others)
  | lexeme others own maximal complete rest =>
    rw [← List.append_assoc]
    exact .lexeme (isGap.append others) own maximal complete rest

/-- Texts with a line break between them split as each of them does. -/
theorem Splits.append (first : Splits strict cs ts) {own : List Token} (same : ts = own ++ [.eof])
    (second : Splits strict ds us) (blank : isBlank c = true) (lineEnd : isLineEnd c = true) :
    Splits strict (cs ++ c :: ds) (own ++ us) := by
  induction first generalizing own with
  | last isGap =>
    cases own with
    | cons t own => cases (List.append_eq_nil_iff.mp (List.cons.inj same).2.symm).2
    | nil =>
      rw [List.append_cons]
      exact second.gap_append (isGap.concat_lineEnd blank lineEnd)
  | @lexeme _ w rest more t _ isGap lexeme maximal _ _ ih =>
    cases own with
    | nil => exact absurd (List.cons.inj same).1 lexeme.ne_eof
    | cons t' own =>
      obtain ⟨rfl, behind⟩ := List.cons.inj same
      rw [List.append_assoc, List.append_assoc]
      refine .lexeme isGap lexeme ?_ (fun _ _ => ?_) (ih behind)
      · cases rest with
        | cons d rest => exact maximal
        | nil =>
          refine lexeme.stops_iff.mp (.cons ?_ ds)
          exact lexeme.more_of_delimits (.inl blank)
      · exact List.append_ne_nil_of_right_ne_nil rest (List.cons_ne_nil c ds)

end Texts

/-! ### Wider scopes -/

/-- Every name in scope is in the other scope as well. -/
def Scope.Within (scope wider : Scope) : Prop :=
  ∀ name, scope.contains name = true → wider.contains name = true

namespace Scope.Within

variable {scope wider : Scope}

theorem declare (within : scope.Within wider) (symbol sort : String) :
    scope.Within (wider.declare symbol sort) := by
  intro name inside
  rw [contains_declare, within name inside, Bool.or_true]

/-- A command leaves one scope within the other. -/
theorem behind (within : scope.Within wider) (command : Command) :
    (command.scope scope).Within (command.scope wider) := by
  cases command with
  | assert t => exact within
  | declareConst symbol sort =>
    intro name inside
    rw [Command.scope, contains_declare, Bool.or_eq_true] at inside ⊢
    exact inside.imp id (within name)

/-- Commands take no name out of scope. -/
theorem before (within : scope.Within wider) (command : Command) :
    scope.Within (command.scope wider) := by
  cases command with
  | assert t => exact within
  | declareConst symbol sort => exact within.declare symbol sort

end Scope.Within

section Wider

variable {scope wider : Scope}

/-- A symbol stands for the same term in a wider scope: whether it is a number does not depend on
the scope. -/
def Scope.Reading.widen (within : scope.Within wider) {name : String} {t : Term} :
    scope.Reading name t → wider.Reading name t
  | .name noMinus inside => .name noMinus (within _ inside)
  | .number minus starts value => .number minus starts value
  | .opposite minus noNumber inside => .opposite minus noNumber (within _ inside)

mutual

/-- Tokens of a term are those of the same term in a wider scope. -/
def Term.Derivation.widen (within : scope.Within wider) {ts : List Token} {t : Term} :
    t.Derivation scope ts → t.Derivation wider ts
  | .literal value => .literal value
  | .symbol reading => .symbol (reading.widen within)
  | .apply inside own => .apply (within _ inside) (own.widen within)

def Term.ArgsDerivation.widen (within : scope.Within wider) {ts : List Token} {args : List Term} :
    Term.ArgsDerivation scope ts args → Term.ArgsDerivation wider ts args
  | .one last => .one (last.widen within)
  | .more first others => .more (first.widen within) (others.widen within)

end

def Command.Derivation.widen (within : scope.Within wider) {ts : List Token} {command : Command} :
    command.Derivation scope ts → command.Derivation wider ts
  | .assert own => .assert (own.widen within)
  | .declareConst known => .declareConst known

/-- Tokens of a script are those of the same script in a wider scope. -/
def Script.Derivation.widen {scope wider : Scope} (within : scope.Within wider) {ts : List Token}
    {commands : List Command} : Script.Derivation scope ts commands →
      Script.Derivation wider ts commands
  | .nil => .nil
  | @Script.Derivation.cons _ _ _ command _ first others =>
    .cons (first.widen within) (others.widen (within.behind command))

end Wider

/-- The tokens of a script, with those of another one in place of the end, are those of the
commands of both. The second script is read in the scope that the first one leaves. -/
theorem Script.Derivation.append {scope inner : Scope} {ts own us : List Token}
    {commands more : List Command} (first : Script.Derivation scope ts commands)
    (same : ts = own ++ [.eof]) (second : Script.Derivation inner us more)
    (within : inner.Within scope) : Script.Phrase scope (own ++ us) (commands ++ more) := by
  induction first generalizing own with
  | nil =>
    cases own with
    | nil => exact ⟨second.widen within⟩
    | cons t own => cases (List.append_eq_nil_iff.mp (List.cons.inj same).2.symm).2
  | @cons _ read _ command _ d others ih =>
    obtain ⟨rest, rfl, -⟩ := others.exists_concat
    rw [← List.append_assoc] at same
    obtain ⟨rfl, -⟩ := List.append_inj' same rfl
    obtain ⟨behind⟩ := ih rfl (within.before command)
    rw [List.append_assoc]
    exact ⟨.cons d behind⟩

namespace Specification

/-- A text is parsed as a script if it splits into tokens that derive the script. -/
theorem parse_eq_ok_iff_splits {text : String} {strict : Bool} {script : Script} :
    parse (.ofText text) strict = .ok script ↔
      ∃ ts, Splits strict text.toList ts ∧ Script.Phrase .empty ts script.commands := by
  have run := Lexer.run_stream strict text.toList (.point .origin)
  have ends : (Lexer.new (.ofText text) strict).stream.EndsOnce := Lexer.endsOnce_stream ..
  rw [parse_eq_ok_iff, Script.ofSource_eq_ofStream]
  constructor
  · intro parsed
    obtain ⟨complete, phrase⟩ := Script.phrase_of_ok ends parsed
    exact ⟨_, run.splits (congrArg (Option.map (·.value)) complete), phrase⟩
  · rintro ⟨ts, splits, phrase⟩
    obtain ⟨tokens, failure⟩ := run.unique splits.run
    have stream : (Lexer.new (.ofText text) strict).stream =
        ⟨(Lexer.new (.ofText text) strict).stream.tokens, none⟩ :=
      congrArg (TokenStream.mk _) (Option.map_eq_none_iff.mp failure)
    rw [stream]
    rw [← tokens] at phrase
    exact Script.ofStream_of_phrase phrase

/-- Two parsed texts, each on lines of its own, are parsed as the commands of the first followed by
those of the second. -/
theorem parse_append {first second : String} {strict : Bool} {s s' : Script}
    (parsed : parse (.ofText first) strict = .ok s)
    (parsed' : parse (.ofText second) strict = .ok s') :
    parse (.ofText (first ++ "\n" ++ second)) strict = .ok ⟨s.commands ++ s'.commands⟩ := by
  rw [parse_eq_ok_iff_splits] at parsed parsed' ⊢
  obtain ⟨ts, splits, ⟨d⟩⟩ := parsed
  obtain ⟨us, splits', ⟨d'⟩⟩ := parsed'
  obtain ⟨own, rfl, -⟩ := d.exists_concat
  have whole : (first ++ "\n" ++ second).toList = first.toList ++ '\n' :: second.toList := by simp
  refine ⟨own ++ us, ?_, d.append rfl d' fun _ inside => inside⟩
  rw [whole]
  exact splits.append rfl splits' rfl rfl

/-- The first text ends in a comment, and what it declares is built in for the second one. -/
theorem parse_append_comment : ∃ s s',
    parse (.ofText "(declare-const and Real)\n(assert (<= 0.5 and)) ; (assert") true = .ok s ∧
    parse (.ofText "(declare-const X Real)\n(assert (and (<= X -and)))") true = .ok s' ∧
    s.commands.length = 2 ∧ s'.commands.length = 2 ∧
    parse (.ofText ("(declare-const and Real)\n(assert (<= 0.5 and)) ; (assert" ++ "\n" ++
      "(declare-const X Real)\n(assert (and (<= X -and)))")) true =
        .ok ⟨s.commands ++ s'.commands⟩ := by
  obtain ⟨s, parsed, size⟩ : ∃ s,
      parse (.ofText "(declare-const and Real)\n(assert (<= 0.5 and)) ; (assert") true = .ok s ∧
        s.commands.length = 2 := exists_of_parse (by decide +kernel)
  obtain ⟨s', parsed', size'⟩ : ∃ s',
      parse (.ofText "(declare-const X Real)\n(assert (and (<= X -and)))") true = .ok s' ∧
        s'.commands.length = 2 := exists_of_parse (by decide +kernel)
  exact ⟨s, s', parsed, parsed', size, size', parse_append parsed parsed'⟩

end Specification

end NetSpec
