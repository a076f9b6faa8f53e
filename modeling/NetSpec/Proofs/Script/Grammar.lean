import NetSpec.Proofs.Script.Term
import NetSpec.Script.Literal
import NetSpec.Script.Symbol

/-!
# The grammar of scripts

A script is a sequence of commands up to the end of the text, and a command declares a
constant or asserts a term. Which symbols stand for a term depends on the names in scope at
their place, so derivations are indexed by a scope, and a declaration changes the scope of the
commands behind it.

Derivations are data: which production was used, and for which tokens, can be told from them.
Tokens have at most one derivation, and no tokens of a term go on to be those of another, so a
reader that looks at one token knows where a term ends.
-/

namespace NetSpec

/-- How a symbol alone stands for a term. -/
inductive Scope.Reading (scope : Scope) : String → Term → Type where
  /-- A name in scope, if it does not begin with a minus. -/
  | name {name : String} (noMinus : name.toList.head? ≠ some '-')
      (inside : scope.contains name = true) : Reading scope name (.identifier name)
  /-- A number with a minus in front of its first digit or its point. -/
  | number {name : String} {rest : List Char} {x : Float} (minus : name.toList = '-' :: rest)
      (starts : startsNumber rest = true) (value : Binary64.ofText? name = some x) :
      Reading scope name (.constant (.real x))
  /-- The opposite of a name in scope, if the whole is no such number. -/
  | opposite {name : String} {rest : List Char} (minus : name.toList = '-' :: rest)
      (noNumber : startsNumber rest = true → Binary64.ofText? name = none)
      (inside : scope.contains (String.ofList rest) = true) :
      Reading scope name (.apply "-" [.identifier (String.ofList rest)])

mutual

/-- How tokens are those of a term. -/
inductive Term.Derivation (scope : Scope) : List Token → Term → Type where
  /-- A literal with a value. -/
  | literal {t : Token} {c : Constant} (value : Constant.ofToken? t = some c) :
      Term.Derivation scope [t] (.constant c)
  /-- A symbol that stands for a term. -/
  | symbol {name : String} {t : Term} (reading : scope.Reading name t) :
      Term.Derivation scope [.symbol name] t
  /-- A function in scope and its arguments, between parentheses. -/
  | apply {function : String} {ts : List Token} {args : List Term}
      (inside : scope.contains function = true) (own : Term.ArgsDerivation scope ts args) :
      Term.Derivation scope (.openParen :: .symbol function :: (ts ++ [.closeParen]))
        (.apply function args)

/-- How tokens are those of one term or more. -/
inductive Term.ArgsDerivation (scope : Scope) : List Token → List Term → Type where
  | one {ts : List Token} {t : Term} (last : Term.Derivation scope ts t) :
      Term.ArgsDerivation scope ts [t]
  | more {ts us : List Token} {t : Term} {args : List Term} (first : Term.Derivation scope ts t)
      (others : Term.ArgsDerivation scope us args) :
      Term.ArgsDerivation scope (ts ++ us) (t :: args)

end

/-- How tokens are those of a command. -/
inductive Command.Derivation (scope : Scope) : List Token → Command → Type where
  | assert {ts : List Token} {t : Term} (own : t.Derivation scope ts) :
      Command.Derivation scope (.openParen :: .symbol "assert" :: (ts ++ [.closeParen])) (.assert t)
  | declareConst {symbol sort : String} (known : sort ∈ sorts) :
      Command.Derivation scope
        [.openParen, .symbol "declare-const", .symbol symbol, .symbol sort, .closeParen]
        (.declareConst symbol sort)

/-- How tokens are those of commands up to the end of the text, each in the scope that those
before it leave. -/
inductive Script.Derivation : Scope → List Token → List Command → Type where
  | nil {scope : Scope} : Script.Derivation scope [.eof] []
  | cons {scope : Scope} {ts us : List Token} {command : Command} {commands : List Command}
      (first : command.Derivation scope ts)
      (others : Script.Derivation (command.scope scope) us commands) :
      Script.Derivation scope (ts ++ us) (command :: commands)

theorem Scope.Reading.unique {scope : Scope} {name : String} {t t' : Term}
    (r : scope.Reading name t) (r' : scope.Reading name t') : t = t' ∧ HEq r r' := by
  cases r with
  | name noMinus inside =>
    cases r' with
    | name _ _ => exact ⟨rfl, HEq.rfl⟩
    | number minus _ _ => exact absurd (congrArg List.head? minus) noMinus
    | opposite minus _ _ => exact absurd (congrArg List.head? minus) noMinus
  | number minus starts value =>
    cases r' with
    | name noMinus _ => exact absurd (congrArg List.head? minus) noMinus
    | number minus' starts' value' =>
      cases (List.cons.inj (minus.symm.trans minus')).2
      cases value.symm.trans value'
      exact ⟨rfl, HEq.rfl⟩
    | opposite minus' noNumber _ =>
      cases (List.cons.inj (minus.symm.trans minus')).2
      cases value.symm.trans (noNumber starts)
  | opposite minus noNumber inside =>
    cases r' with
    | name noMinus _ => exact absurd (congrArg List.head? minus) noMinus
    | number minus' starts value =>
      cases (List.cons.inj (minus.symm.trans minus')).2
      cases value.symm.trans (noNumber starts)
    | opposite minus' _ _ =>
      cases (List.cons.inj (minus.symm.trans minus')).2
      exact ⟨rfl, HEq.rfl⟩

variable {scope : Scope}

theorem Term.Derivation.exists_cons {ts : List Token} {t : Term} (d : t.Derivation scope ts) :
    ∃ first rest, ts = first :: rest ∧ first ≠ .closeParen ∧ first ≠ .eof := by
  cases d with
  | @literal t c value =>
    refine ⟨t, [], rfl, ?_, ?_⟩ <;>
    · rintro rfl
      cases value
  | symbol _ => exact ⟨_, _, rfl, nofun, nofun⟩
  | apply _ _ => exact ⟨_, _, rfl, nofun, nofun⟩

theorem Term.ArgsDerivation.ne_closeParen {ts us vs : List Token} {args : List Term}
    (d : Term.ArgsDerivation scope ts args) : ts ++ us ≠ .closeParen :: vs := by
  intro same
  cases d with
  | one last =>
    obtain ⟨first, rest, rfl, differs, -⟩ := last.exists_cons
    exact differs (List.cons.inj same).1
  | more d _ =>
    obtain ⟨first, rest, rfl, differs, -⟩ := d.exists_cons
    exact differs (List.cons.inj same).1

mutual

/-- Whatever follows two terms, if it is the same text they are the same term: nothing but its
own tokens says where a term ends. -/
theorem Term.Derivation.unique {ts ts' us us' : List Token} {t t' : Term}
    (d : t.Derivation scope ts) (d' : t'.Derivation scope ts') (same : ts ++ us = ts' ++ us') :
    ts = ts' ∧ t = t' ∧ HEq d d' := by
  cases d with
  | literal value =>
    cases d' with
    | literal value' =>
      cases (List.cons.inj same).1
      cases value.symm.trans value'
      exact ⟨rfl, rfl, HEq.rfl⟩
    | symbol _ =>
      cases (List.cons.inj same).1
      cases value
    | apply _ _ =>
      cases (List.cons.inj same).1
      cases value
  | symbol reading =>
    cases d' with
    | literal value =>
      cases (List.cons.inj same).1
      cases value
    | symbol reading' =>
      cases (List.cons.inj same).1
      obtain ⟨rfl, alike⟩ := reading.unique reading'
      cases alike
      exact ⟨rfl, rfl, HEq.rfl⟩
    | apply _ _ => cases (List.cons.inj same).1
  | @apply function inner _ inside own =>
    cases d' with
    | literal value =>
      cases (List.cons.inj same).1
      cases value
    | symbol _ => cases (List.cons.inj same).1
    | @apply function' inner' _ inside' own' =>
      obtain ⟨rfl, behind⟩ : function = function' ∧
          inner ++ .closeParen :: us = inner' ++ .closeParen :: us' := by simpa using same
      obtain ⟨rfl, rfl, alike⟩ := own.unique own' behind
      cases alike
      exact ⟨rfl, rfl, HEq.rfl⟩

/-- Arguments end at the closing parenthesis behind them. -/
theorem Term.ArgsDerivation.unique {ts ts' us us' : List Token} {args args' : List Term}
    (d : Term.ArgsDerivation scope ts args) (d' : Term.ArgsDerivation scope ts' args')
    (same : ts ++ .closeParen :: us = ts' ++ .closeParen :: us') :
    ts = ts' ∧ args = args' ∧ HEq d d' := by
  cases d with
  | one last =>
    cases d' with
    | one last' =>
      obtain ⟨rfl, rfl, alike⟩ := last.unique last' same
      cases alike
      exact ⟨rfl, rfl, HEq.rfl⟩
    | more first others =>
      rw [List.append_assoc] at same
      obtain ⟨rfl, -, -⟩ := last.unique first same
      exact absurd (List.append_cancel_left same).symm others.ne_closeParen
  | more first others =>
    cases d' with
    | one last =>
      rw [List.append_assoc] at same
      obtain ⟨rfl, -, -⟩ := first.unique last same
      exact absurd (List.append_cancel_left same) others.ne_closeParen
    | more first' others' =>
      rw [List.append_assoc, List.append_assoc] at same
      obtain ⟨rfl, rfl, alike⟩ := first.unique first' same
      obtain ⟨rfl, rfl, alikeOthers⟩ := others.unique others' (List.append_cancel_left same)
      cases alike
      cases alikeOthers
      exact ⟨rfl, rfl, HEq.rfl⟩

end

theorem Command.Derivation.unique {ts ts' us us' : List Token} {command command' : Command}
    (d : command.Derivation scope ts) (d' : command'.Derivation scope ts')
    (same : ts ++ us = ts' ++ us') : ts = ts' ∧ command = command' ∧ HEq d d' := by
  cases d with
  | @assert inner _ own =>
    cases d' with
    | @assert inner' _ own' =>
      have behind : inner ++ .closeParen :: us = inner' ++ .closeParen :: us' := by
        simpa using same
      obtain ⟨rfl, rfl, alike⟩ := own.unique own' behind
      cases alike
      exact ⟨rfl, rfl, HEq.rfl⟩
    | declareConst _ => simp at same
  | declareConst known =>
    cases d' with
    | assert _ => simp at same
    | declareConst known' =>
      simp only [List.cons_append, List.nil_append, List.cons.injEq, Token.symbol.injEq,
        true_and] at same
      obtain ⟨rfl, rfl, -⟩ := same
      exact ⟨rfl, rfl, HEq.rfl⟩

theorem Command.Derivation.exists_cons {ts : List Token} {command : Command}
    (d : command.Derivation scope ts) : ∃ rest, ts = .openParen :: rest := by
  cases d <;> exact ⟨_, rfl⟩

/-- A script has one derivation: its tokens say where each command ends. -/
theorem Script.Derivation.unique {scope : Scope} {ts ts' : List Token}
    {commands commands' : List Command} (d : Script.Derivation scope ts commands)
    (d' : Script.Derivation scope ts' commands') (same : ts = ts') :
    commands = commands' ∧ HEq d d' := by
  cases d with
  | nil =>
    cases d' with
    | nil => exact ⟨rfl, HEq.rfl⟩
    | cons first _ =>
      obtain ⟨rest, rfl⟩ := first.exists_cons
      cases (List.cons.inj same).1
  | cons first others =>
    cases d' with
    | nil =>
      obtain ⟨rest, rfl⟩ := first.exists_cons
      cases (List.cons.inj same).1
    | cons first' others' =>
      obtain ⟨rfl, rfl, alike⟩ := first.unique first' same
      cases alike
      have behind := List.append_cancel_left same
      obtain ⟨rfl, alikeOthers⟩ := others.unique others' behind
      cases behind
      cases alikeOthers
      exact ⟨rfl, HEq.rfl⟩

/-! ### The end of the text -/

mutual

theorem Term.Derivation.eof_notMem {ts : List Token} {t : Term} (d : t.Derivation scope ts) :
    .eof ∉ ts := by
  cases d with
  | literal value =>
    intro mem
    rw [← List.mem_singleton.mp mem] at value
    cases value
  | symbol _ => simp
  | apply _ own => simpa using own.eof_notMem

theorem Term.ArgsDerivation.eof_notMem {ts : List Token} {args : List Term}
    (d : Term.ArgsDerivation scope ts args) : .eof ∉ ts := by
  cases d with
  | one last => exact last.eof_notMem
  | more first others =>
    exact fun mem => (List.mem_append.mp mem).elim first.eof_notMem others.eof_notMem

end

theorem Command.Derivation.eof_notMem {ts : List Token} {command : Command}
    (d : command.Derivation scope ts) : .eof ∉ ts := by
  cases d with
  | assert own => simpa using own.eof_notMem
  | declareConst _ => simp

/-- The end of the text is the last token of a script and no other. -/
theorem Script.Derivation.exists_concat {scope : Scope} {ts : List Token}
    {commands : List Command} (d : Script.Derivation scope ts commands) :
    ∃ own, ts = own ++ [.eof] ∧ .eof ∉ own := by
  induction d with
  | nil => exact ⟨[], rfl, List.not_mem_nil⟩
  | cons first _ ih =>
    obtain ⟨own, rfl, absent⟩ := ih
    exact ⟨_, (List.append_assoc ..).symm,
      fun mem => (List.mem_append.mp mem).elim first.eof_notMem absent⟩

end NetSpec
