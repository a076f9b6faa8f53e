import NetSpec.Proofs.Script.Expectation
import NetSpec.Proofs.Script.Grammar

/-!
# The phrases of a script

The tokens of a term, of a command and of a script are phrases, and so are those of arguments
with the closing parenthesis behind them. For each the lemmas say with which tokens it may
begin and what is left of it behind those that have been read. They follow from the grammar,
and the parser has no part in them.
-/

namespace NetSpec

namespace Scope

variable (scope : Scope) (name : String)

/-- A name is resolved if it is in scope; otherwise a symbol that is the name, or has a minus
in front of it, is to blame. -/
theorem resolve_cases :
    (scope.contains name = true ∧ scope.resolve name = .ok name) ∨
    (scope.contains name = false ∧ ∃ e, scope.resolve name = .error e ∧
      ∀ written : String, written = name ∨ written.toList = '-' :: name.toList →
        e.Blames (.symbol written)) := by
  cases inside : scope.contains name with
  | true => exact .inl ⟨rfl, if_pos inside⟩
  | false =>
    refine .inr ⟨rfl, ?_⟩
    simp only [resolve, inside, Bool.false_eq_true, if_false]
    split
    · exact ⟨_, rfl, fun written same => ⟨written, rfl, same⟩⟩
    · exact ⟨_, rfl, fun written same => ⟨written, rfl, same⟩⟩

variable {name}

theorem contains_of_builtin? (built : (builtin? name).isSome = true) :
    scope.contains name = true := by
  rw [contains, built, Bool.or_true]

theorem contains_minus : scope.contains "-" = true := scope.contains_of_builtin? (by decide)

variable {scope} {rest : List Char} {t : Term}

/-- Behind a minus there has to be a number or a name in scope. -/
theorem Reading.isEmpty_of_minus (minus : name.toList = '-' :: rest)
    (noNumber : startsNumber rest = true → Binary64.ofText? name = none)
    (outside : scope.contains (String.ofList rest) = false) : IsEmpty (scope.Reading name t) := by
  constructor
  intro reading
  cases reading with
  | name noMinus _ => exact noMinus (congrArg List.head? minus)
  | number minus' starts value =>
    cases (List.cons.inj (minus.symm.trans minus')).2
    cases value.symm.trans (noNumber starts)
  | opposite minus' _ inside =>
    cases (List.cons.inj (minus.symm.trans minus')).2
    cases outside.symm.trans inside

/-- Without a minus a symbol has to be a name in scope. -/
theorem Reading.isEmpty_of_noMinus (noMinus : name.toList.head? ≠ some '-')
    (outside : scope.contains name = false) : IsEmpty (scope.Reading name t) := by
  constructor
  intro reading
  cases reading with
  | name _ inside => cases outside.symm.trans inside
  | number minus _ _ => exact noMinus (congrArg List.head? minus)
  | opposite minus _ _ => exact noMinus (congrArg List.head? minus)

variable (scope name)

/-- A symbol is interpreted by the one reading that it has, or is to blame. -/
theorem interpret_cases :
    (∃ t, scope.interpret name = .ok t ∧ Nonempty (scope.Reading name t)) ∨
    (∃ e, scope.interpret name = .error e ∧ e.Blames (.symbol name) ∧
      ∀ t, IsEmpty (scope.Reading name t)) := by
  simp only [interpret]
  split
  next rest minus =>
    split
    next x found =>
      split at found
      next starts => exact .inl ⟨_, rfl, ⟨.number minus starts found⟩⟩
      next => cases found
    next found =>
      have noNumber : startsNumber rest = true → Binary64.ofText? name = none := by
        intro starts
        rwa [if_pos starts] at found
      have known : scope.resolve "-" = .ok "-" := if_pos scope.contains_minus
      rw [known]
      rcases scope.resolve_cases (String.ofList rest) with
        ⟨inside, resolved⟩ | ⟨outside, e, failed, blames⟩
      · rw [resolved]
        exact .inl ⟨_, rfl, ⟨.opposite minus noNumber inside⟩⟩
      · rw [failed]
        have written : name.toList = '-' :: (String.ofList rest).toList := by
          rw [minus, String.toList_ofList]
        exact .inr ⟨e, rfl, blames name (.inr written), fun t =>
          Reading.isEmpty_of_minus minus noNumber outside⟩
  next other =>
    have noMinus : name.toList.head? ≠ some '-' := by
      intro head
      obtain ⟨rest, minus⟩ := List.head?_eq_some_iff.mp head
      exact other rest minus
    rcases scope.resolve_cases name with ⟨inside, resolved⟩ | ⟨outside, e, failed, blames⟩
    · rw [resolved]
      exact .inl ⟨_, rfl, ⟨.name noMinus inside⟩⟩
    · rw [failed]
      exact .inr ⟨e, rfl, blames name (.inl rfl), fun t =>
        Reading.isEmpty_of_noMinus noMinus outside⟩

end Scope

/-- A term begins with neither. -/
def Token.BeginsTerm (t : Token) : Prop := t ≠ .closeParen ∧ t ≠ .eof

instance (t : Token) : Decidable t.BeginsTerm := inferInstanceAs (Decidable (_ ∧ _))

/-- The tokens of a term. -/
def Term.Phrase (scope : Scope) (ts : List Token) (t : Term) : Prop :=
  Nonempty (t.Derivation scope ts)

/-- The tokens of one term or more, and the closing parenthesis behind them. -/
def Term.ArgsPhrase (scope : Scope) (ts : List Token) (args : List Term) : Prop :=
  ∃ own, ts = own ++ [.closeParen] ∧ Nonempty (Term.ArgsDerivation scope own args)

variable {scope : Scope}

namespace Term.Phrase

theorem proper : Proper (Phrase scope) where
  inhabited := by
    have inside : scope.contains "true" = true := scope.contains_of_builtin? (by decide)
    exact ⟨_, _, ⟨.symbol (.name (by decide) inside)⟩⟩
  nonempty := by
    rintro t ⟨d⟩
    obtain ⟨first, rest, same, -⟩ := d.exists_cons
    cases same

theorem of_symbol {name : String} {ts : List Token} {t : Term}
    (phrase : Phrase scope (.symbol name :: ts) t) : ts = [] ∧ Nonempty (scope.Reading name t) := by
  obtain ⟨d⟩ := phrase
  cases d with
  | literal value => cases value
  | symbol reading => exact ⟨rfl, ⟨reading⟩⟩

theorem of_literal {token : Token} {ts : List Token} {t : Term}
    (literal : token.kind.isLiteral = true) (phrase : Phrase scope (token :: ts) t) :
    ∃ c, Constant.ofToken? token = some c := by
  obtain ⟨d⟩ := phrase
  cases d with
  | literal value => exact ⟨_, value⟩
  | symbol _ => cases literal
  | apply _ _ => cases literal

theorem of_openParen {ts : List Token} {t : Term} (phrase : Phrase scope (.openParen :: ts) t) :
    ∃ function own args, ts = .symbol function :: own ∧ t = .apply function args ∧
      scope.contains function = true ∧ ArgsPhrase scope own args := by
  obtain ⟨d⟩ := phrase
  cases d with
  | literal value => cases value
  | apply inside own => exact ⟨_, _, _, rfl, rfl, inside, _, rfl, ⟨own⟩⟩

end Term.Phrase

theorem Term.Phrase.apply_iff {function : String} {ts : List Token} {t : Term}
    (inside : scope.contains function = true) :
    Term.Phrase scope (.openParen :: .symbol function :: ts) t ↔
      ∃ args, t = .apply function args ∧ Term.ArgsPhrase scope ts args := by
  constructor
  · intro phrase
    obtain ⟨_, own, args, same, rfl, -, held⟩ := phrase.of_openParen
    cases same
    exact ⟨args, rfl, held⟩
  · rintro ⟨args, rfl, own, rfl, ⟨d⟩⟩
    exact ⟨.apply inside d⟩

theorem Term.Phrase.beginsTerm {first : Token} {ts : List Token} {t : Term}
    (phrase : Term.Phrase scope (first :: ts) t) : first.BeginsTerm := by
  obtain ⟨d⟩ := phrase
  obtain ⟨first', rest, same, begins⟩ := d.exists_cons
  cases same
  exact begins

/-- Behind an opening parenthesis there is a function and its arguments. -/
theorem Term.Phrase.proper_behind_openParen :
    Proper fun ts t => Term.Phrase scope (.openParen :: ts) t where
  inhabited := by
    have inside : scope.contains "and" = true := scope.contains_of_builtin? (by decide)
    obtain ⟨ts, t, ⟨d⟩⟩ := (@Term.Phrase.proper scope).inhabited
    exact ⟨_, _, ⟨.apply inside (.one d)⟩⟩
  nonempty t phrase := by
    obtain ⟨function, own, args, same, -⟩ := phrase.of_openParen
    cases same

namespace Term.ArgsPhrase

theorem initial : Initial (ArgsPhrase scope) (Phrase scope) where
  extend := by
    rintro ts t ⟨d⟩
    exact ⟨[.closeParen], [t], ts, rfl, ⟨.one d⟩⟩
  begins := by
    rintro _ args ⟨ts, rfl, ⟨d⟩⟩
    cases d with
    | one last => exact ⟨_, _, _, rfl, ⟨last⟩⟩
    | more first others => exact ⟨_, _, _, List.append_assoc .., ⟨first⟩⟩

variable {read : List Token} {t : Term}

/-- A closing parenthesis behind a term ends the arguments. -/
theorem residual_last (first : Phrase scope read t) : Residual (ArgsPhrase scope) read .closeParen
    fun ts args => ts = [.closeParen] ∧ args = [t] where
  extend := by
    rintro ts args ⟨rfl, rfl⟩
    obtain ⟨d⟩ := first
    exact ⟨read, rfl, ⟨.one d⟩⟩
  split := by
    rintro _ us vs args ⟨ts, rfl, ⟨d⟩⟩ same
    refine ⟨[.closeParen], [t], ⟨rfl, rfl⟩, ?_⟩
    obtain ⟨d'⟩ := first
    have same : ts ++ .closeParen :: us = read ++ .closeParen :: vs := by simpa using same
    obtain ⟨rfl, -, -⟩ := d.unique (.one d') same
    exact List.append_cancel_left same

/-- Anything else begins another argument. -/
theorem residual_more {next : Token} (first : Phrase scope read t) (more : next ≠ .closeParen) :
    Residual (ArgsPhrase scope) read next
      fun ts args => ∃ others, args = t :: others ∧ ArgsPhrase scope ts others where
  extend := by
    rintro _ _ ⟨others, rfl, ts, rfl, ⟨d⟩⟩
    obtain ⟨d'⟩ := first
    exact ⟨read ++ ts, (List.append_assoc ..).symm, ⟨.more d' d⟩⟩
  split := by
    rintro _ us vs args ⟨ts, rfl, ⟨d⟩⟩ same
    obtain ⟨d'⟩ := first
    have same : ts ++ .closeParen :: us = read ++ next :: vs := by simpa using same
    cases d with
    | one last =>
      obtain ⟨rfl, -, -⟩ := last.unique d' same
      exact absurd (List.cons.inj (List.append_cancel_left same)).1.symm more
    | @more ts' us' t' others first' others' =>
      rw [List.append_assoc] at same
      obtain ⟨rfl, rfl, -⟩ := first'.unique d' same
      refine ⟨us' ++ [.closeParen], t' :: others, ⟨others, rfl, us', rfl, ⟨others'⟩⟩, ?_⟩
      have behind := List.append_cancel_left same
      rwa [List.append_assoc]

end Term.ArgsPhrase

/-- The tokens of a command. -/
def Command.Phrase (scope : Scope) (ts : List Token) (command : Command) : Prop :=
  Nonempty (command.Derivation scope ts)

/-- The tokens of a declaration between its keyword and the closing parenthesis. -/
def Command.DeclarationPhrase (ts : List Token) (command : Command) : Prop :=
  ∃ symbol sort, sort ∈ sorts ∧ command = .declareConst symbol sort ∧
    ts = [.symbol symbol, .symbol sort]

namespace Command.Phrase

variable {ts : List Token} {command : Command}

theorem assert_iff {name : String} (keyword : name = "assert") :
    Phrase scope (.openParen :: .symbol name :: ts) command ↔
      ∃ own, ts = own ++ [.closeParen] ∧ ∃ t, command = .assert t ∧ Term.Phrase scope own t := by
  constructor
  · rintro ⟨d⟩
    cases d with
    | assert own => exact ⟨_, rfl, _, rfl, ⟨own⟩⟩
    | declareConst known => exact absurd keyword (by decide)
  · rintro ⟨own, rfl, t, rfl, ⟨d⟩⟩
    rw [keyword]
    exact ⟨.assert d⟩

theorem declareConst_iff {name : String} (keyword : name = "declare-const") :
    Phrase scope (.openParen :: .symbol name :: ts) command ↔
      ∃ own, ts = own ++ [.closeParen] ∧ DeclarationPhrase own command := by
  constructor
  · rintro ⟨d⟩
    cases d with
    | assert own => exact absurd keyword (by decide)
    | declareConst known => exact ⟨[_, _], rfl, _, _, known, rfl, rfl⟩
  · rintro ⟨_, rfl, symbol, sort, known, rfl, rfl⟩
    rw [keyword]
    exact ⟨.declareConst known⟩

theorem proper : Proper (Phrase scope) where
  inhabited := by
    obtain ⟨ts, t, ⟨d⟩⟩ := (@Term.Phrase.proper scope).inhabited
    exact ⟨_, _, ⟨.assert d⟩⟩
  nonempty := by
    rintro command ⟨d⟩
    obtain ⟨rest, same⟩ := d.exists_cons
    cases same

/-- Behind an opening parenthesis there is one of two keywords. -/
theorem keyword {first : Token} (phrase : Phrase scope (.openParen :: first :: ts) command) :
    first = .symbol "assert" ∨ first = .symbol "declare-const" := by
  obtain ⟨d⟩ := phrase
  cases d with
  | assert own => exact .inl rfl
  | declareConst known => exact .inr rfl

theorem proper_behind_openParen :
    Proper fun ts command => Phrase scope (.openParen :: ts) command where
  inhabited := by
    obtain ⟨ts, command, ⟨d⟩⟩ := (@proper scope).inhabited
    obtain ⟨rest, rfl⟩ := d.exists_cons
    exact ⟨rest, command, ⟨d⟩⟩
  nonempty := by
    rintro command ⟨d⟩
    cases d

end Command.Phrase

/-- A sort is found by its own name. -/
theorem sort?_eq_some_iff {name sort : String} :
    sort? name = some sort ↔ name = sort ∧ sort ∈ sorts := by
  constructor
  · intro found
    have same : sort = name := by simpa using List.find?_some found
    exact ⟨same.symm, List.mem_of_find?_eq_some found⟩
  · rintro ⟨rfl, known⟩
    have each : ∀ sort ∈ sorts, sort? sort = some sort := by decide
    exact each name known

/-- The tokens of commands up to the end of the text. -/
def Script.Phrase (scope : Scope) (ts : List Token) (commands : List Command) : Prop :=
  Nonempty (Script.Derivation scope ts commands)

namespace Script.Phrase

variable {commands : List Command} {next : Token}

/-- What is not at the end begins with a command. -/
theorem residual_command (more : next ≠ .eof) : Residual (Phrase scope) [] next
    fun ts commands => Phrase scope ts commands ∧ commands ≠ [] where
  extend ts commands held := held.1
  split := by
    rintro ts us vs commands ⟨d⟩ same
    refine ⟨ts, commands, ⟨⟨d⟩, ?_⟩, same⟩
    rintro rfl
    cases d
    exact more (List.cons.inj same).1.symm

theorem initial : Initial (fun ts commands => Phrase scope ts commands ∧ commands ≠ [])
    (Command.Phrase scope) where
  extend := by
    rintro ts command ⟨d⟩
    exact ⟨[.eof], [command], ⟨.cons d .nil⟩, List.cons_ne_nil _ _⟩
  begins := by
    rintro _ commands ⟨⟨d⟩, more⟩
    cases d with
    | nil => exact absurd rfl more
    | cons first others => exact ⟨_, _, _, rfl, ⟨first⟩⟩

/-- Behind a command there are the others, in the scope that it leaves. -/
theorem residual_behind {read : List Token} {command : Command}
    (first : Command.Phrase scope read command) : Residual (Phrase scope) read next
      fun ts commands =>
        ∃ others, commands = command :: others ∧ Phrase (command.scope scope) ts others where
  extend := by
    rintro ts _ ⟨others, rfl, ⟨d⟩⟩
    obtain ⟨d'⟩ := first
    exact ⟨.cons d' d⟩
  split := by
    rintro _ us vs commands ⟨d⟩ same
    obtain ⟨d'⟩ := first
    cases d with
    | nil =>
      obtain ⟨rest, rfl⟩ := d'.exists_cons
      cases (List.cons.inj same).1
    | @cons _ ts' us' command' others first' others' =>
      rw [List.append_assoc] at same
      obtain ⟨rfl, rfl, -⟩ := first'.unique d' same
      exact ⟨us', _, ⟨others, rfl, ⟨others'⟩⟩, List.append_cancel_left same⟩

end Script.Phrase

end NetSpec
