import NetSpec.Proofs.Number.Rounding
import NetSpec.Proofs.Script.Dialect
import NetSpec.Proofs.Token.Reading

/-!
# The literals of a script

Every literal of a script comes from a token, so what it can be is settled where tokens are
converted. A number that a text writes is a magnitude of some code, unless the text is the word for
something that is no number, and no token that is taken for a number begins with a letter. So a
script has no reals but numbers, infinity among them, and it has no negative integers.
-/

namespace NetSpec

mutual

/-- The literals in a term, from left to right. -/
def Term.constants : Term → List Constant
  | .apply _ args => Term.constantsArgs args
  | .constant c => [c]
  | .identifier _ => []

def Term.constantsArgs : List Term → List Constant
  | [] => []
  | arg :: args => Term.constants arg ++ Term.constantsArgs args

end

/-- The literals in the terms that a script asserts. -/
def Script.constants (s : Script) : List Constant := s.asserted.flatMap Term.constants

theorem Term.mem_constantsArgs {args : List Term} {c : Constant} :
    c ∈ constantsArgs args ↔ ∃ arg ∈ args, c ∈ arg.constants := by
  induction args with
  | nil => simp [constantsArgs]
  | cons arg args ih => simp [constantsArgs, ih]

theorem Term.mem_realsArgs {args : List Term} {x : Float} :
    x ∈ realsArgs args ↔ ∃ arg ∈ args, x ∈ arg.reals := by
  induction args with
  | nil => simp [realsArgs]
  | cons arg args ih => simp [realsArgs, ih]

theorem Term.readable_of_mem_constants {scope : Scope} {t : Term} {c : Constant}
    (readable : t.Readable scope) (mem : c ∈ t.constants) : c.Readable := by
  induction t with
  | apply function args ih =>
    obtain ⟨arg, inside, mem⟩ := mem_constantsArgs.mp mem
    exact ih arg inside (allReadable_iff.mp readable.2.2 arg inside) mem
  | constant value =>
    rw [List.mem_singleton.mp mem]
    exact readable
  | identifier name => cases mem

theorem Term.mem_reals_of_mem_constants {t : Term} {x : Float} (mem : .real x ∈ t.constants) :
    x ∈ t.reals := by
  induction t with
  | apply function args ih =>
    obtain ⟨arg, inside, mem⟩ := mem_constantsArgs.mp mem
    exact mem_realsArgs.mpr ⟨arg, inside, ih arg inside mem⟩
  | constant value =>
    cases List.mem_singleton.mp mem
    exact List.mem_singleton_self x
  | identifier name => cases mem

namespace Binary64

/-- What begins with a digit or a point is no word, so its magnitude is a number. -/
theorem isNumber_of_magnitude? {negative : Bool} {cs : List Char} {x : Float}
    (starts : startsNumber cs = true) (read : magnitude? negative cs = some x) : IsNumber x := by
  simp only [magnitude?] at read
  split_ifs at read with infinite word
  · cases read
    exact isNumber_toFloat negative (Nat.le_refl _)
  · obtain ⟨c, others, rfl, lower, -⟩ := List.map_eq_cons_iff.mp word
    rcases Bool.or_eq_true_iff.mp starts with digit | point
    · rw [toLower_of_isDigit digit] at lower
      exact absurd lower (ne_of_test digit rfl)
    · rw [of_decide_eq_true point] at lower
      exact absurd lower (by decide)
  · obtain ⟨d, -, rfl⟩ := Option.map_eq_some_iff.mp read
    exact isNumber_toFloat negative d.code_le

theorem isNumber_of_minus {text : String} {x : Float} {rest : List Char}
    (written : text.toList = '-' :: rest) (starts : startsNumber rest = true)
    (read : ofText? text = some x) : IsNumber x := by
  rw [ofText?, written] at read
  exact isNumber_of_magnitude? starts read

theorem isNumber_of_digit {text : String} {x : Float} {c : Char} {cs : List Char}
    (written : text.toList = c :: cs) (digit : c.isDigit = true) (read : ofText? text = some x) :
    IsNumber x := by
  have starts : startsNumber (c :: cs) = true := Bool.or_eq_true_iff.mpr (.inl digit)
  rw [ofText?, written, ofChars?] at read
  · exact isNumber_of_magnitude? starts read
  · rintro others same
    exact absurd (List.cons.inj same).1 (ne_of_test digit rfl)
  · rintro others same
    exact absurd (List.cons.inj same).1 (ne_of_test digit rfl)

end Binary64

/-- The text of a number begins with a digit. -/
theorem Lexeme.exists_digit {strict : Bool} {more : Char → Bool} {w : List Char} {t : Token}
    (own : Lexeme strict more w t) (number : t.kind = .numeral ∨ t.kind = .decimal) :
    ∃ c cs, t.text.toList = c :: cs ∧ c.isDigit = true := by
  cases own with
  | numeral isWhole =>
    obtain ⟨c, cs, rfl, digit⟩ := isWhole.exists_cons
    exact ⟨c, cs, String.toList_ofList, digit⟩
  | @decimal whole tail _ isWhole _ =>
    obtain ⟨c, cs, rfl, digit⟩ := isWhole.exists_cons
    exact ⟨c, cs ++ tail, String.toList_ofList, digit⟩
  | openParen | closeParen | symbol | quotedSymbol | string | hexadecimal | binary =>
    rcases number with number | number <;> cases number

/-- The real that a numeral or a decimal is converted to is the one that its text writes. -/
theorem Constant.ofText?_of_ofToken? {t : Token} {x : Float}
    (number : t.kind = .numeral ∨ t.kind = .decimal) (value : ofToken? t = some (.real x)) :
    Binary64.ofText? t.text = some x := by
  have real {read : Option Float} (value : read.map Constant.real = some (.real x)) :
      read = some x := by
    obtain ⟨y, rfl, same⟩ := Option.map_eq_some_iff.mp value
    cases same
    rfl
  cases t with
  | numeral text =>
    rw [ofToken?] at value
    split at value
    next whole =>
      cases value
      obtain ⟨n, -, fits⟩ := Option.bind_eq_some_iff.mp whole
      rw [ofNat?] at fits
      split at fits <;> cases fits
    next => exact real value
  | decimal text => exact real value
  | eof | openParen | closeParen | symbol | hexadecimal | binary | string =>
    rcases number with number | number <;> cases number

namespace Script

theorem readable_of_mem_constants {scope : Scope} {commands : List Command} {c : Constant}
    (readable : AllReadable scope commands) (mem : c ∈ (Script.mk commands).constants) :
    c.Readable := by
  induction commands generalizing scope with
  | nil => cases mem
  | cons command commands ih =>
    cases command with
    | declareConst symbol sort => exact ih readable.2 mem
    | assert term =>
      rcases List.mem_append.mp mem with own | others
      · exact term.readable_of_mem_constants readable.1 own
      · exact ih readable.2 others

/-- In a script that a source holds there are no negative integers, and all reals are numbers. -/
theorem constants_of_ofSource {source : Source} {strict : Bool} {s : Script}
    (ok : ofSource source strict = .ok s) :
    (∀ i, .int i ∈ s.constants → 0 ≤ i.toInt) ∧
      ∀ x, .real x ∈ s.constants → Binary64.IsNumber x := by
  refine ⟨fun i mem => readable_of_mem_constants (readable_of_ofSource ok) mem, fun x mem => ?_⟩
  obtain ⟨term, asserted, mem⟩ := List.mem_flatMap.mp mem
  have mem : x ∈ reals s.commands :=
    List.mem_flatMap.mpr ⟨term, asserted, term.mem_reals_of_mem_constants mem⟩
  rw [ofSource_eq_ofStream] at ok
  obtain ⟨-, ⟨d⟩⟩ := phrase_of_ok (Lexer.endsOnce_new source strict) ok
  rw [← d.realsOf.values] at mem
  obtain ⟨⟨t, x⟩, found, rfl⟩ := List.mem_map.mp mem
  obtain ⟨listed, isReal⟩ := d.realsOf.tokens (t, x) found
  cases isReal with
  | symbol minus starts value => exact Binary64.isNumber_of_minus minus starts value
  | literal number value =>
    obtain ⟨placed, given, rfl⟩ := List.mem_map.mp listed
    rcases Lexer.exists_lexeme strict _ _ _ placed given with last | ⟨more, w, own⟩
    · dsimp only at number
      rw [last] at number
      rcases number with number | number <;> cases number
    · obtain ⟨c, cs, written, digit⟩ := own.exists_digit number
      exact Binary64.isNumber_of_digit written digit
        (Constant.ofText?_of_ofToken? number value)

end Script

end NetSpec
