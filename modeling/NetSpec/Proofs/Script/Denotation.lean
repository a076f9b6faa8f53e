import NetSpec.Proofs.Script.Constants
import NetSpec.Proofs.Script.Radix

/-!
# What literals denote

The lexer keeps the text of a literal and the parser converts it, so the two have to agree on what
the text looks like. The parser cuts off marks and quotes by counting bytes, which is safe for
every token that a lexer gives, and what is left is the number or the string that was written: a
number by its digits, whatever zeros stand in front, and a string by its characters, however many
quotes are among them. A number that does not fit is refused or, if it is a numeral, rounded. No
literal denotes a negative integer or something that is no number, and so none is in a script.
-/

namespace NetSpec

/-! ### Pieces of a text -/

/-- What a text has from one byte up to another, if both stand between characters. -/
def IsSlice (text : String) (start stop : Nat) (inner : String) : Prop :=
  ∃ before behind, text = before ++ inner ++ behind ∧ before.utf8ByteSize = start ∧
    (before ++ inner).utf8ByteSize = stop

/-- The bytes that a literal is converted from if these are not all of its text: a number in base
sixteen or two behind its mark, and a string between its quotes. -/
def Token.slice? : Token → Option (Nat × Nat)
  | .hexadecimal text | .binary text => some (2, text.utf8ByteSize)
  | .string text => some (1, text.utf8ByteSize - 1)
  | _ => none

namespace Constant

/-- An integer constant by its digits, if there are any. -/
def ofDigits? (value : List Char → Nat) : List Char → Option Constant
  | [] => none
  | digits => ofNat? (value digits)

/-- The value of a literal by the piece of its text that it is converted from. -/
def ofSlice? (t : Token) (inner : List Char) : Option Constant :=
  match t with
  | .hexadecimal _ => ofDigits? hexValue inner
  | .binary _ => ofDigits? bitsValue inner
  | .string _ => some (.string (String.ofList (singleQuotes inner)))
  | _ => none

theorem ofMarked?_eq (value : List Char → Nat) (mark digits : List Char)
    (two : mark.length = 2) :
    ofMarked? value (String.ofList (mark ++ digits)) = ofDigits? value digits := by
  have behind : (String.ofList (mark ++ digits)).toList.drop 2 = digits := by
    rw [String.toList_ofList, ← two, List.drop_left]
  rw [ofMarked?, behind]
  rfl

end Constant

/-- The piece behind a mark. -/
theorem isSlice_behind (mark digits : List Char) :
    IsSlice (String.ofList (mark ++ digits)) (String.ofList mark).utf8ByteSize
      (String.ofList (mark ++ digits)).utf8ByteSize (String.ofList digits) := by
  refine ⟨String.ofList mark, "", ?_, rfl, ?_⟩ <;> rw [String.ofList_append]
  exact String.append_empty.symm

/-- The piece between quotes. -/
theorem isSlice_between (body : List Char) :
    IsSlice (String.ofList ('"' :: body ++ ['"'])) 1
      ((String.ofList ('"' :: body ++ ['"'])).utf8ByteSize - 1) (String.ofList body) := by
  have whole : String.ofList ('"' :: body ++ ['"']) = "\"" ++ String.ofList body ++ "\"" := by
    rw [← List.singleton_append, String.ofList_append, String.ofList_append]
  have size : ("\"" ++ String.ofList body ++ "\"").utf8ByteSize =
      ("\"" ++ String.ofList body).utf8ByteSize + 1 := String.utf8ByteSize_append
  refine ⟨"\"", "\"", whole, rfl, ?_⟩
  rw [whole, size, Nat.add_sub_cancel]

/-- What is cut off a literal of a lexer is there, and its value is that of the piece left. -/
theorem Lexeme.exists_slice {strict : Bool} {more : Char → Bool} {w : List Char} {t : Token}
    (own : Lexeme strict more w t) {start stop : Nat} (sliced : t.slice? = some (start, stop)) :
    ∃ inner, IsSlice t.text start stop inner ∧
      Constant.ofToken? t = Constant.ofSlice? t inner.toList := by
  cases own with
  | openParen | closeParen | symbol | quotedSymbol | numeral | decimal => cases sliced
  | @hexadecimal digits all =>
    cases sliced
    refine ⟨_, isSlice_behind ['#', 'x'] digits, ?_⟩
    rw [String.toList_ofList]
    exact Constant.ofMarked?_eq hexValue ['#', 'x'] digits rfl
  | @binary digits all =>
    cases sliced
    refine ⟨_, isSlice_behind ['#', 'b'] digits, ?_⟩
    rw [String.toList_ofList]
    exact Constant.ofMarked?_eq bitsValue ['#', 'b'] digits rfl
  | string body =>
    cases sliced
    refine ⟨_, isSlice_between (doubleQuotes body), ?_⟩
    have inner : (('"' :: doubleQuotes body ++ ['"']).drop 1).dropLast = doubleQuotes body :=
      List.dropLast_concat
    rw [Constant.ofToken?, String.toList_ofList, String.toList_ofList, inner]
    rfl

/-! ### Values -/

/-- Wherever a parser meets the token, with no error of the lexer behind it, it takes the token
alone for a term, which is a literal of this value, or refuses it as an invalid literal if there is
none. -/
def Token.Denotes (t : Token) (value : Option Constant) : Prop :=
  ∀ p q : Parser, p.current.value = t → p.advance = (.ok p.current, q) →
    match value with
    | some c => ∃ shorter, p.term = .ok (.constant c) q shorter
    | none => p.term = .error ⟨.invalidLiteral t, p.current.span⟩ q

/-- A literal denotes what it is converted to. -/
theorem Token.denotes_of_isLiteral {t : Token} (literal : t.kind.isLiteral = true) :
    t.Denotes (Constant.ofToken? t) := by
  rintro p q rfl taken
  have term : p.term = p.literal := by
    rw [Parser.term]
    cases kind : p.current.value.kind with
    | numeral | decimal | hexadecimal | binary | string => rfl
    | eof | openParen | closeParen | symbol =>
      rw [kind] at literal
      cases literal
  have accepted : ∃ shorter, p.accept (fun t => if t.kind.isLiteral then some t else none) rfl =
      .ok ⟨p.current.value, p.current.span⟩ q shorter :=
    Parser.accept_of_taken taken (if_pos literal)
  obtain ⟨shorter, accepted⟩ := accepted
  rw [term, Parser.literal, accepted]
  simp only [Parser.Step.check]
  cases Constant.ofToken? p.current.value with
  | some c => exact ⟨shorter, rfl⟩
  | none => rfl

namespace Constant

/-- A number denotes the integer if it fits. -/
theorem ofNat?_of_le {n : Nat} (small : n ≤ 2 ^ 63 - 1) :
    ∃ i : Int64, i.toInt = n ∧ ofNat? n = some (.int i) := by
  have bound : n < 2 ^ 63 := by omega
  exact ⟨Int64.ofNat n, Int64.toInt_ofNat_of_lt bound, if_pos bound⟩

theorem ofNat?_of_lt {n : Nat} (large : 2 ^ 63 - 1 < n) : ofNat? n = none := by
  have bound : ¬ n < 2 ^ 63 := by omega
  exact if_neg bound

theorem ofDigits?_eq {value : List Char → Nat} {digits : List Char} (some : digits ≠ []) :
    ofDigits? value digits = ofNat? (value digits) := by
  cases digits with
  | nil => exact absurd rfl some
  | cons => rfl

end Constant

/-- The token denotes the integer of a natural number, or nothing if there is no room for it. -/
def Token.DenotesInteger (t : Token) (n : Nat) : Prop :=
  (n ≤ 2 ^ 63 - 1 → ∃ i : Int64, i.toInt = n ∧ t.Denotes (some (.int i))) ∧
    (2 ^ 63 - 1 < n → t.Denotes none)

/-- The token denotes the integer of a natural number, or the real that is nearest to the number if
there is no room for it. -/
def Token.DenotesNumber (t : Token) (n : Nat) : Prop :=
  (n ≤ 2 ^ 63 - 1 → ∃ i : Int64, i.toInt = n ∧ t.Denotes (some (.int i))) ∧
    (2 ^ 63 - 1 < n → ∃ x, Binary64.IsNearest n x ∧ t.Denotes (some (.real x)))

section Spelled

variable {base n : Nat} {cs : List Char}

theorem Token.denotesInteger_of_ofNat? {t : Token} (literal : t.kind.isLiteral = true)
    (value : Constant.ofToken? t = Constant.ofNat? n) : t.DenotesInteger n := by
  have denotes := Token.denotes_of_isLiteral literal
  rw [value] at denotes
  refine ⟨fun small => ?_, fun large => ?_⟩
  · obtain ⟨i, same, fits⟩ := Constant.ofNat?_of_le small
    exact ⟨i, same, fits ▸ denotes⟩
  · rwa [Constant.ofNat?_of_lt large] at denotes

/-- A literal that is converted by a reader for the base denotes what is spelled in it. -/
theorem ReadsBase.denotes {fits : Char → Bool} {worth : Char → Nat} {value : List Char → Nat}
    (reads : ReadsBase base fits worth value) (own : Positional base cs n) (some : cs ≠ [])
    {t : Token} (literal : t.kind.isLiteral = true)
    (digits : Constant.ofToken? t = Constant.ofDigits? value cs) : t.DenotesInteger n := by
  refine Token.denotesInteger_of_ofNat? literal ?_
  rw [digits, Constant.ofDigits?_eq some, reads.value_eq own]

/-- A number in base sixteen is read as one token that denotes it. -/
theorem Spells.hexadecimal (spells : Spells 16 cs n) (strict : Bool) :
    Lexer.Reads strict isHexDigit ('#' :: 'x' :: cs)
      (.hexadecimal (String.ofList ('#' :: 'x' :: cs))) ∧
    (Token.hexadecimal (String.ofList ('#' :: 'x' :: cs))).DenotesInteger n := by
  have own := spells.positional (by decide)
  have lexeme : Lexeme strict _ _ _ := .hexadecimal (readsBase_sixteen.all_fit own)
  exact ⟨lexeme.reads fun _ => complete_of_kind .hexadecimal rfl (by decide),
    readsBase_sixteen.denotes own spells.ne_nil rfl (Constant.ofMarked?_eq _ ['#', 'x'] cs rfl)⟩

/-- So is a number in base two. -/
theorem Spells.binary (spells : Spells 2 cs n) (strict : Bool) :
    Lexer.Reads strict isBit ('#' :: 'b' :: cs) (.binary (String.ofList ('#' :: 'b' :: cs))) ∧
    (Token.binary (String.ofList ('#' :: 'b' :: cs))).DenotesInteger n := by
  have own := spells.positional (by decide)
  have lexeme : Lexeme strict _ _ _ := .binary (readsBase_two.all_fit own)
  exact ⟨lexeme.reads fun _ => complete_of_kind .binary rfl (by decide),
    readsBase_two.denotes own spells.ne_nil rfl (Constant.ofMarked?_eq _ ['#', 'b'] cs rfl)⟩

/-- A mark without digits is read as one token that denotes nothing. -/
theorem reads_mark (strict : Bool) :
    (Lexer.Reads strict isHexDigit ['#', 'x'] (.hexadecimal "#x") ∧
      (Token.hexadecimal "#x").Denotes none) ∧
    Lexer.Reads strict isBit ['#', 'b'] (.binary "#b") ∧ (Token.binary "#b").Denotes none := by
  have hexadecimal : Lexeme strict _ _ _ := .hexadecimal (List.forall_mem_nil _)
  have binary : Lexeme strict _ _ _ := .binary (List.forall_mem_nil _)
  exact ⟨⟨hexadecimal.reads fun _ => complete_of_kind .hexadecimal rfl (by decide),
      Token.denotes_of_isLiteral rfl⟩,
    binary.reads fun _ => complete_of_kind .binary rfl (by decide), Token.denotes_of_isLiteral rfl⟩

/-- The digits of a natural number are rounded to the nearest real. -/
theorem Binary64.ofText?_of_isWhole (isWhole : IsWhole cs) :
    ofText? (String.ofList cs) = some (toFloat false (nearest (Decimal.digitsValue cs) 1)) := by
  let s : Spelling := ⟨cs, [], none, isWhole, List.forall_mem_nil _⟩
  have chars : s.chars = cs := by simp [s, Spelling.chars, Spelling.point, Spelling.mark]
  have code : s.decimal.code = nearest (Decimal.digitsValue cs) 1 := by
    have decimal : s.decimal = ⟨Decimal.digitsValue cs, 0⟩ := by simp [s, Spelling.decimal]
    rw [decimal, Decimal.code_eq]
    exact congrArg (nearest · 1) (Nat.mul_one _)
  rw [ofText?, String.toList_ofList, ← code, ← ofChars?_spelling, chars]

/-- A numeral is read as one token that denotes its number. -/
theorem Spells.numeral (spells : Spells 10 cs n) (isWhole : IsWhole cs) (strict : Bool) :
    Lexer.Reads strict (moreOfWhole cs) cs (.numeral (String.ofList cs)) ∧
    (Token.numeral (String.ofList cs)).DenotesNumber n := by
  have value := readsBase_ten.value_eq (spells.positional (by decide))
  have denotes : (Token.numeral (String.ofList cs)).Denotes _ := Token.denotes_of_isLiteral rfl
  have digits : (Decimal.digits? (String.ofList cs).toList).bind Constant.ofNat? =
      Constant.ofNat? n := by
    rw [String.toList_ofList, Decimal.digits?_eq_some isWhole.nonempty isWhole.digits, value]
    rfl
  refine ⟨?_, fun small => ?_, fun large => ?_⟩
  · have lexeme : Lexeme strict _ _ _ := .numeral isWhole
    exact lexeme.reads fun _ => complete_of_kind .numeral rfl (by decide)
  · obtain ⟨i, same, fits⟩ := Constant.ofNat?_of_le small
    rw [Constant.ofToken?, digits, fits] at denotes
    exact ⟨i, same, denotes⟩
  · have nearest := Binary64.isNearest_toFloat n Nat.one_pos
    rw [Nat.cast_one, div_one] at nearest
    rw [Constant.ofToken?, digits, Constant.ofNat?_of_lt large,
      Binary64.ofText?_of_isWhole isWhole, value] at denotes
    exact ⟨_, nearest, denotes⟩

/-- A text is read back from between quotes, if those inside it are doubled. -/
theorem reads_string (s : String) (strict : Bool) :
    ∃ t : Token, t.kind = .string ∧
      Lexer.Reads strict (· = '"') ('"' :: doubleQuotes s.toList ++ ['"']) t ∧
      t.Denotes (some (.string s)) := by
  refine ⟨.string (String.ofList ('"' :: doubleQuotes s.toList ++ ['"'])), rfl, ?_, ?_⟩
  · exact (Lexeme.string s.toList).reads fun _ => complete_of_kind .string rfl (by decide)
  · have inner : (('"' :: doubleQuotes s.toList ++ ['"']).drop 1).dropLast =
        doubleQuotes s.toList := List.dropLast_concat
    have denotes :
        (Token.string (String.ofList ('"' :: doubleQuotes s.toList ++ ['"']))).Denotes _ :=
      Token.denotes_of_isLiteral rfl
    rwa [Constant.ofToken?, String.toList_ofList, inner, Constant.singleQuotes_doubleQuotes,
      String.ofList_toList] at denotes

end Spelled

/-! ### All literals -/

/-- What literals denote in a dialect. -/
structure Literals (strict : Bool) : Prop where
  /-- Whatever token a lexer gives, the piece of its text that it is converted from is there, and
  its value is that of the piece. -/
  slices : ∀ source : Source, ∀ t ∈ (Lexer.new source strict).stream.tokens,
    ∀ start stop, t.value.slice? = some (start, stop) → ∃ inner,
      IsSlice t.value.text start stop inner ∧
      Constant.ofToken? t.value = Constant.ofSlice? t.value inner.toList
  /-- Between quotes, with those inside it doubled, a text is read as one token that denotes it. -/
  strings : ∀ s : String, ∃ t : Token, t.kind = .string ∧
    Lexer.Reads strict (· = '"') ('"' :: doubleQuotes s.toList ++ ['"']) t ∧
    t.Denotes (some (.string s))
  /-- In base sixteen every spelling of a number denotes it, or is refused if there is no room. -/
  hexadecimals : ∀ n cs, Spells 16 cs n → ∃ t : Token, t.kind = .hexadecimal ∧
    Lexer.Reads strict isHexDigit ('#' :: 'x' :: cs) t ∧ t.DenotesInteger n
  /-- So it is in base two. -/
  binaries : ∀ n cs, Spells 2 cs n → ∃ t : Token, t.kind = .binary ∧
    Lexer.Reads strict isBit ('#' :: 'b' :: cs) t ∧ t.DenotesInteger n
  /-- A mark without digits is refused. -/
  marks : (∃ t : Token, t.kind = .hexadecimal ∧ Lexer.Reads strict isHexDigit ['#', 'x'] t ∧
      t.Denotes none) ∧
    ∃ t : Token, t.kind = .binary ∧ Lexer.Reads strict isBit ['#', 'b'] t ∧ t.Denotes none
  /-- A numeral denotes its number, or the nearest real if there is no room for an integer. -/
  numerals : ∀ n cs, IsWhole cs → Spells 10 cs n → ∃ t : Token, t.kind = .numeral ∧
    Lexer.Reads strict (moreOfWhole cs) cs t ∧ t.DenotesNumber n
  /-- So no script has a negative integer or a real that is no number. -/
  scripts : ∀ (source : Source) (s : Script), Script.ofSource source strict = .ok s →
    (∀ i, .int i ∈ s.constants → 0 ≤ i.toInt) ∧ ∀ x, .real x ∈ s.constants → Binary64.IsNumber x

/-- Literals denote what is written, in both dialects and in every source. -/
theorem literals_denote (strict : Bool) : Literals strict where
  slices source t given start stop sliced := by
    rcases Lexer.exists_lexeme strict _ _ _ t given with last | ⟨more, w, own⟩
    · rw [last] at sliced
      cases sliced
    · exact own.exists_slice sliced
  strings s := reads_string s strict
  hexadecimals _ _ spells := ⟨_, rfl, spells.hexadecimal strict⟩
  binaries _ _ spells := ⟨_, rfl, spells.binary strict⟩
  marks := ⟨⟨_, rfl, (reads_mark strict).1⟩, _, rfl, (reads_mark strict).2⟩
  numerals _ _ isWhole spells := ⟨_, rfl, spells.numeral isWhole strict⟩
  scripts _ _ ok := Script.constants_of_ofSource ok

/-- Quotes at both ends of a text, the last integer behind a zero and in letters of both cases, and
the first number beyond it in the other bases. -/
theorem literals_denote_limits :
    (∃ t : Token, Lexer.Reads true (· = '"') "\"\"\"a\"\"\"".toList t ∧
      t.Denotes (some (.string "\"a\""))) ∧
    (∃ t : Token, Lexer.Reads true isHexDigit "#x07fffFFFFffffFFFF".toList t ∧
      ∃ i : Int64, i.toInt = 2 ^ 63 - 1 ∧ t.Denotes (some (.int i))) ∧
    (∃ t : Token, Lexer.Reads true isBit ('#' :: 'b' :: '1' :: List.replicate 63 '0') t ∧
      t.Denotes none) ∧
    (∃ t : Token, Lexer.Reads true (moreOfWhole (Nat.toDigits 10 (2 ^ 63)))
        (Nat.toDigits 10 (2 ^ 63)) t ∧
      ∃ x, Binary64.IsNearest (2 ^ 63 : Nat) x ∧ t.Denotes (some (.real x))) ∧
    ∃ script, Script.ofSource (.ofText "(assert (<= #xff -1.5))") true = .ok script ∧
      (∀ i, .int i ∈ script.constants → 0 ≤ i.toInt) ∧
      ∀ x, .real x ∈ script.constants → Binary64.IsNumber x := by
  have literals := literals_denote true
  refine ⟨?_, ?_, ?_, ?_, ?_⟩
  · obtain ⟨t, -, reads, denotes⟩ := literals.strings "\"a\""
    exact ⟨t, reads, denotes⟩
  · obtain ⟨t, -, reads, denotes⟩ := literals.hexadecimals (2 ^ 63 - 1) "07fffFFFFffffFFFF".toList
      ⟨1, by decide +kernel⟩
    exact ⟨t, reads, denotes.1 (Nat.le_refl _)⟩
  · obtain ⟨t, -, reads, denotes⟩ := literals.binaries (2 ^ 63) ('1' :: List.replicate 63 '0')
      ⟨0, by decide +kernel⟩
    exact ⟨t, reads, denotes.2 (by decide)⟩
  · obtain ⟨t, -, reads, denotes⟩ := literals.numerals (2 ^ 63) (Nat.toDigits 10 (2 ^ 63))
      (isWhole_toDigits _) ⟨0, by decide +kernel⟩
    exact ⟨t, reads, denotes.2 (by decide)⟩
  · obtain ⟨script, parsed, -, -⟩ : ∃ script,
        Specification.parse (.ofText "(assert (<= #xff -1.5))") true = .ok script ∧
          script.Writable true ∧ script.text = "(assert (<= 255 -1.5))\n" :=
      Specification.exists_parsed (by decide +kernel)
    exact ⟨script, Specification.parse_eq_ok_iff.mp parsed,
      literals.scripts _ _ (Specification.parse_eq_ok_iff.mp parsed)⟩

end NetSpec
