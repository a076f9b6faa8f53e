import NetSpec.Proofs.Number.Level
import NetSpec.Proofs.Token.Lexeme
import NetSpec.Script.Literal
import NetSpec.Script.Symbol

/-!
# Literals read back

The text of a literal is one token, and the token has the value that was written. Integers
that a reader finds are not negative, so theirs is a numeral. A real is a decimal, or, with
its minus, a symbol that reads as a number. The strict dialect has no exponents, so there a
real without a sign has to be zero or between `1e-4` and `1e16`.
-/

namespace NetSpec

namespace Constant

/-- A literal that a text can hold in front of a reader of the dialect: a real is finite, and
the strict dialect has room for no exponent. -/
def Writable (strict : Bool) : Constant → Prop
  | real x => Binary64.isFinite x = true ∧
      (strict = true → 0 ≤ x → (x == 0) = true ∨ 1e-4 ≤ x ∧ x < 1e16)
  | _ => True

/-- A reader finds no negative integers. -/
def Readable : Constant → Prop
  | int n => 0 ≤ n.toInt
  | _ => True

/-- The token of a literal; a minus makes a number a symbol. -/
def token : Constant → Token
  | int n => .numeral (Constant.int n).text
  | real x =>
    if Binary64.isNegative x then .symbol (Constant.real x).text
    else .decimal (Constant.real x).text
  | string s => .string (Constant.string s).text

end Constant

namespace Binary64

/-- Zero and the numbers between the bounds are written without an exponent. -/
theorem isPositional_code {x : Float} (positive : isNegative x = false)
    (finite : isFinite x = true) (range : (x == 0) = true ∨ 1e-4 ≤ x ∧ x < 1e16) :
    Layout.literal.isPositional (code x) = true := by
  have zero : isNegative 0 = false ∧ isFinite 0 = true ∧ code 0 = 0 := by decide +kernel
  have first : isNegative 1e-4 = false ∧ isFinite 1e-4 = true ∧
      code 1e-4 = Decimal.code ⟨1, -4⟩ := by decide +kernel
  have stop : isNegative 1e16 = false ∧ isFinite 1e16 = true ∧
      code 1e16 = Decimal.code ⟨1, 16⟩ := by decide +kernel
  show (decide (code x = 0) || (decide (Decimal.code ⟨1, -4⟩ ≤ code x) &&
    decide (code x < Decimal.code ⟨1, 16⟩))) = true
  rw [← first.2.2, ← stop.2.2]
  rcases range with same | ⟨above, below⟩
  · rw [beq_iff_code_eq positive finite zero.1 zero.2.1, zero.2.2] at same
    rw [same]
    rfl
  · rw [le_iff_code_le first.1 first.2.1 positive finite] at above
    rw [lt_iff_code_lt positive finite stop.1 stop.2.1] at below
    rw [decide_eq_true above, decide_eq_true below, Bool.and_self, Bool.or_true]

/-- A number without a sign is not below zero. -/
theorem nonneg_of_isNegative {x : Float} (positive : isNegative x = false)
    (finite : isFinite x = true) : 0 ≤ x := by
  have zero : isNegative 0 = false ∧ isFinite 0 = true ∧ code 0 = 0 := by decide +kernel
  rw [le_iff_code_le zero.1 zero.2.1 positive finite, zero.2.2]
  exact Nat.zero_le _

end Binary64

/-- The text of a finite number is a spelling, behind a minus if the number has a sign. -/
theorem exists_text_real {x : Float} (finite : Binary64.isFinite x = true) :
    ∃ s : Spelling,
      (Constant.real x).text.toList =
        (if Binary64.isNegative x then ['-'] else []) ++ s.chars ∧
      (s.places ≠ [] ∨ s.exponent ≠ none) ∧
      (Layout.literal.isPositional (Binary64.code x) = true → s.exponent = none) := by
  have bound : Binary64.code x < Binary64.infinityCode := of_decide_eq_true finite
  obtain ⟨s, written, -, more, positional⟩ := Spelling.exists_magnitude bound
  refine ⟨s, ?_, more, positional⟩
  rw [Constant.text, Layout.text, String.toList_ofList, Layout.chars, if_neg (by omega), written]

theorem text_int {n : Int64} (nonneg : 0 ≤ n.toInt) :
    (Constant.int n).text.toList = (Spelling.ofNat n.toInt.toNat).chars := by
  obtain ⟨k, value⟩ := Int.eq_ofNat_of_zero_le nonneg
  have written : (Spelling.ofNat k).chars = Nat.toDigits 10 k := List.append_nil _
  rw [Constant.text, value, Int.toNat_natCast, written]
  exact Nat.toList_repr

theorem text_string (s : String) :
    (Constant.string s).text.toList = '"' :: doubleQuotes s.toList ++ ['"'] :=
  String.toList_ofList

namespace Constant

variable {strict : Bool}

/-- The token of a literal is a literal, apart from a number with a minus. -/
theorem token_cases (c : Constant) :
    (∃ x, c = .real x ∧ Binary64.isNegative x = true ∧ c.token = .symbol c.text) ∨
      c.token.kind.isLiteral = true := by
  cases c with
  | int n => exact .inr rfl
  | string s => exact .inr rfl
  | real x =>
    cases sign : Binary64.isNegative x with
    | true => exact .inl ⟨x, rfl, sign, if_pos sign⟩
    | false =>
      right
      rw [token, sign]
      rfl

/-- A literal is written as one token. -/
theorem isLexeme {c : Constant} (writable : c.Writable strict) (readable : c.Readable) :
    IsLexeme strict c.text.toList c.token := by
  have whole (c : Constant) : c.text = String.ofList c.text.toList := String.ofList_toList.symm
  cases c with
  | int n =>
    rw [token, whole, String.toList_ofList, text_int readable]
    exact (Spelling.ofNat n.toInt.toNat).isLexeme fun _ => rfl
  | real x =>
    obtain ⟨finite, range⟩ := writable
    obtain ⟨s, written, more, positional⟩ := exists_text_real finite
    rw [token, whole, String.toList_ofList, written]
    cases sign : Binary64.isNegative x with
    | true => exact isLexeme_symbol s.isPlain_minus strict
    | false =>
      have dialect : strict = true → s.exponent = none := by
        intro isStrict
        have nonneg := Binary64.nonneg_of_isNegative sign finite
        exact positional (Binary64.isPositional_code sign finite (range isStrict nonneg))
      have decimal : s.token = .decimal (String.ofList s.chars) := by
        refine if_neg fun both => ?_
        rcases more with places | exponent
        · exact places both.1
        · exact exponent both.2
      have lexeme := s.isLexeme dialect
      rw [decimal] at lexeme
      exact lexeme
  | string s =>
    rw [token, whole, String.toList_ofList, text_string]
    exact isLexeme_string strict s.toList

theorem ofText?_real {x : Float} (finite : Binary64.isFinite x = true) :
    Binary64.ofText? (Constant.real x).text = some x := by
  rw [Binary64.ofText?, text, Layout.text, String.toList_ofList]
  exact Binary64.ofChars?_literal finite

/-- A number with a minus reads as one. -/
theorem interpret_text {x : Float} (finite : Binary64.isFinite x = true)
    (negative : Binary64.isNegative x = true) (scope : Scope) :
    scope.interpret (Constant.real x).text = .ok (.constant (.real x)) := by
  obtain ⟨s, written, -, -⟩ := exists_text_real finite
  obtain ⟨c, cs, whole, digit⟩ := s.exists_whole_eq
  have starts : startsNumber s.chars = true := by
    rw [Spelling.chars, whole, List.cons_append, startsNumber, digit, Bool.true_or]
  rw [negative, if_pos rfl] at written
  rw [Scope.interpret, written]
  simp only [List.cons_append, List.nil_append, starts, if_true, ofText?_real finite]

/-- Of doubled quotes one is left. -/
theorem singleQuotes_doubleQuotes (cs : List Char) : singleQuotes (doubleQuotes cs) = cs := by
  induction cs with
  | nil => rfl
  | cons c cs ih =>
    by_cases quote : c = '"'
    · rw [quote, doubleQuotes_quote, singleQuotes, ih]
    · rw [doubleQuotes_other quote, singleQuotes, ih]
      intro rest same
      exact absurd same quote

/-- The token of another literal has its value. -/
theorem ofToken?_token {c : Constant} (writable : c.Writable strict) (readable : c.Readable)
    (literal : c.token.kind.isLiteral = true) : ofToken? c.token = some c := by
  cases c with
  | int n =>
    obtain ⟨k, value⟩ := Int.eq_ofNat_of_zero_le readable
    have small : k < integerLimit := by
      have bound := n.toInt_lt
      have limit : integerLimit = 2 ^ 63 := rfl
      omega
    have digits : (Constant.int n).text.toList = Nat.toDigits 10 k := by
      rw [text_int readable, value]
      exact List.append_nil _
    have same : Int64.ofNat k = n := by
      rw [← Int64.ofInt_eq_ofNat, ← value, Int64.ofInt_toInt]
    rw [token, ofToken?, digits, Decimal.digits?_toDigits, Option.bind_some, ofNat?, if_pos small,
      same]
  | real x =>
    have positive : Binary64.isNegative x = false := by
      cases sign : Binary64.isNegative x with
      | false => rfl
      | true =>
        rw [token, sign] at literal
        cases literal
    rw [token, positive, if_neg Bool.false_ne_true, ofToken?, ofText?_real writable.1]
    rfl
  | string s =>
    have inner : (('"' :: doubleQuotes s.toList ++ ['"']).drop 1).dropLast =
        doubleQuotes s.toList := List.dropLast_concat
    rw [token, ofToken?, text_string, inner, singleQuotes_doubleQuotes, String.ofList_toList]

end Constant

end NetSpec
