import NetSpec.Proofs.Number.Spelling
import NetSpec.Script.Printer
import NetSpec.Token.Scan

/-!
# The lexical grammar

Each kind of lexeme has a language, which is given here with the characters that would go on
with a lexeme of it. The reader of lexemes takes a lexeme if and only if nothing behind it goes
on with it, and so what it takes is the longest lexeme in front. That these characters are
those that extend a lexeme to the beginning of another one is a theorem,
`Lexeme.more_iff_extends`.

In the strict dialect numbers have no exponents, but a mark behind a number still goes on with
it: it is refused and does not begin a name. A number that breaks off behind its point, its
mark or its sign is complete only if another character follows.
-/

namespace NetSpec

def isSign (c : Char) : Bool := c = '+' || c = '-'

/-- The end of a number from its mark on, with the characters that would go on with it. -/
inductive Exponent : (more : Char → Bool) → List Char → Prop where
  | mark {m : Char} (isMark : isExponentMark m = true) :
      Exponent (fun c => isSign c || c.isDigit) [m]
  | signed {m s : Char} {digits : List Char} (isMark : isExponentMark m = true)
      (sign : isSign s = true) (all : ∀ c ∈ digits, c.isDigit = true) :
      Exponent Char.isDigit (m :: s :: digits)
  | unsigned {m d : Char} {digits : List Char} (isMark : isExponentMark m = true)
      (all : ∀ c ∈ d :: digits, c.isDigit = true) : Exponent Char.isDigit (m :: d :: digits)

/-- What makes a numeral a decimal, with the characters that would go on with it. -/
inductive DecimalTail (strict : Bool) : (more : Char → Bool) → List Char → Prop where
  | point {places : List Char} (all : ∀ c ∈ places, c.isDigit = true) :
      DecimalTail strict (fun c => c.isDigit || isExponentMark c) ('.' :: places)
  | exponent {more : Char → Bool} {e : List Char} (lax : strict = false)
      (own : Exponent more e) : DecimalTail strict more e
  | both {places : List Char} {more : Char → Bool} {e : List Char} (lax : strict = false)
      (all : ∀ c ∈ places, c.isDigit = true) (own : Exponent more e) :
      DecimalTail strict more ('.' :: (places ++ e))

/-- What would go on with a numeral. Nothing but a point or a mark does so behind a zero. -/
def moreOfWhole (whole : List Char) (c : Char) : Bool :=
  c = '.' || isExponentMark c || c.isDigit && whole ≠ ['0']

/-- The lexemes of each kind with their tokens, and the characters that would go on with
them. -/
inductive Lexeme (strict : Bool) : (more : Char → Bool) → List Char → Token → Prop where
  | openParen : Lexeme strict (fun _ => false) ['('] .openParen
  | closeParen : Lexeme strict (fun _ => false) [')'] .closeParen
  | symbol {first : Char} {others : List Char} (start : isSymbolStart first = true)
      (all : ∀ c ∈ others, isSymbolChar c = true) :
      Lexeme strict isSymbolChar (first :: others) (.symbol (String.ofList (first :: others)))
  | quotedSymbol {name : List Char} (noBar : '|' ∉ name) :
      Lexeme strict (fun _ => false) ('|' :: name ++ ['|']) (.symbol (String.ofList name))
  | string (body : List Char) :
      Lexeme strict (· = '"') ('"' :: doubleQuotes body ++ ['"'])
        (.string (String.ofList ('"' :: doubleQuotes body ++ ['"'])))
  | hexadecimal {digits : List Char} (all : ∀ c ∈ digits, isHexDigit c = true) :
      Lexeme strict isHexDigit ('#' :: 'x' :: digits)
        (.hexadecimal (String.ofList ('#' :: 'x' :: digits)))
  | binary {digits : List Char} (all : ∀ c ∈ digits, isBit c = true) :
      Lexeme strict isBit ('#' :: 'b' :: digits) (.binary (String.ofList ('#' :: 'b' :: digits)))
  | numeral {whole : List Char} (isWhole : IsWhole whole) :
      Lexeme strict (moreOfWhole whole) whole (.numeral (String.ofList whole))
  | decimal {whole tail : List Char} {more : Char → Bool} (isWhole : IsWhole whole)
      (own : DecimalTail strict more tail) :
      Lexeme strict more (whole ++ tail) (.decimal (String.ofList (whole ++ tail)))

/-- A decimal that breaks off behind its point, its mark or its sign has something behind it. -/
def Complete (w : List Char) (t : Token) (rest : List Char) : Prop :=
  t.kind = .decimal → (∃ c ∈ w.getLast?, c = '.' ∨ isExponentMark c = true ∨ isSign c = true) →
    rest ≠ []

/-- A character goes on with a lexeme if both begin a lexeme, in the dialect that has them
all. -/
def Extends (w : List Char) (c : Char) : Prop :=
  ∃ behind more t, Lexeme false more (w ++ c :: behind) t

variable {strict : Bool} {more : Char → Bool} {w rest : List Char} {t : Token}

theorem isDigit_of_isAlpha {c : Char} (letter : c.isAlpha = true) : c.isDigit = false := by
  simp [Char.isAlpha, Char.isUpper, Char.isLower, Char.isDigit, UInt32.le_iff_toNat_le] at *
  omega

/-- No symbol begins with a digit. -/
theorem isDigit_of_isSymbolStart {c : Char} (start : isSymbolStart c = true) :
    c.isDigit = false := by
  have special : ∀ d ∈ ['~', '!', '@', '$', '%', '^', '&', '*', '+', '=', '<', '>', '.', '?', '/',
      '_', '-'], d.isDigit = false := by simp
  rw [isSymbolStart, Bool.or_eq_true] at start
  rcases start with letter | listed
  · exact isDigit_of_isAlpha letter
  · exact special c (of_decide_eq_true listed)

theorem Exponent.exists_cons {e : List Char} (own : Exponent more e) :
    ∃ m others, e = m :: others ∧ isExponentMark m = true := by
  cases own with
  | mark isMark => exact ⟨_, _, rfl, isMark⟩
  | signed isMark _ _ => exact ⟨_, _, rfl, isMark⟩
  | unsigned isMark _ => exact ⟨_, _, rfl, isMark⟩

theorem eq_of_isExponentMark {m : Char} (isMark : isExponentMark m = true) : m = 'e' ∨ m = 'E' := by
  simpa [isExponentMark] using isMark

theorem DecimalTail.lax {tail : List Char} (own : DecimalTail strict more tail) :
    DecimalTail false more tail := by
  cases own with
  | point all => exact .point all
  | exponent _ own => exact .exponent rfl own
  | both _ all own => exact .both rfl all own

/-- The strict dialect only has fewer numbers. -/
theorem Lexeme.lax (lexeme : Lexeme strict more w t) : Lexeme false more w t := by
  cases lexeme with
  | openParen => exact .openParen
  | closeParen => exact .closeParen
  | symbol start all => exact .symbol start all
  | quotedSymbol noBar => exact .quotedSymbol noBar
  | string body => exact .string body
  | hexadecimal all => exact .hexadecimal all
  | binary all => exact .binary all
  | numeral isWhole => exact .numeral isWhole
  | decimal isWhole own => exact .decimal isWhole own.lax

theorem forall_mem_concat {fits : Char → Bool} {cs : List Char} {c : Char}
    (all : ∀ d ∈ cs, fits d = true) (last : fits c = true) : ∀ d ∈ cs ++ [c], fits d = true := by
  intro d mem
  rcases List.mem_append.mp mem with mem | mem
  · exact all d mem
  · rwa [List.mem_singleton.mp mem]

theorem Exponent.concat {e : List Char} {c : Char} (own : Exponent more e) (fits : more c = true) :
    ∃ more', Exponent more' (e ++ [c]) := by
  cases own with
  | mark isMark =>
    rcases Bool.or_eq_true_iff.mp fits with sign | digit
    · exact ⟨_, .signed isMark sign (List.forall_mem_nil _)⟩
    · exact ⟨_, .unsigned isMark (forall_mem_concat (List.forall_mem_nil _) digit)⟩
  | signed isMark sign all => exact ⟨_, .signed isMark sign (forall_mem_concat all fits)⟩
  | unsigned isMark all => exact ⟨_, .unsigned isMark (forall_mem_concat all fits)⟩

theorem DecimalTail.concat {tail : List Char} {c : Char} (own : DecimalTail strict more tail)
    (fits : more c = true) : ∃ more', DecimalTail false more' (tail ++ [c]) := by
  cases own with
  | point all =>
    rcases Bool.or_eq_true_iff.mp fits with digit | isMark
    · exact ⟨_, .point (forall_mem_concat all digit)⟩
    · exact ⟨_, .both rfl all (.mark isMark)⟩
  | exponent _ own =>
    obtain ⟨more', own'⟩ := own.concat fits
    exact ⟨more', .exponent rfl own'⟩
  | both _ all own =>
    obtain ⟨more', own'⟩ := own.concat fits
    rw [List.cons_append, List.append_assoc]
    exact ⟨more', .both rfl all own'⟩

theorem IsWhole.concat {whole : List Char} {c : Char} (isWhole : IsWhole whole)
    (notZero : whole ≠ ['0']) (digit : c.isDigit = true) : IsWhole (whole ++ [c]) where
  nonempty := List.append_ne_nil_of_left_ne_nil isWhole.nonempty _
  digits := forall_mem_concat isWhole.digits digit
  leading zero := by
    obtain ⟨first, others, rfl, -⟩ := isWhole.exists_cons
    exact absurd (isWhole.leading zero) notZero

/-- What goes on with a lexeme begins a longer one together with it. -/
theorem Lexeme.extends {c : Char} (lexeme : Lexeme strict more w t) (fits : more c = true) :
    Extends w c := by
  cases lexeme with
  | openParen => cases fits
  | closeParen => cases fits
  | symbol start all => exact ⟨[], _, _, .symbol start (forall_mem_concat all fits)⟩
  | quotedSymbol noBar => cases fits
  | string body =>
    have same : doubleQuotes (body ++ ['"']) = doubleQuotes body ++ ['"', '"'] := by
      simp [doubleQuotes]
    have longer : Lexeme false _ _ _ := .string (body ++ ['"'])
    rw [of_decide_eq_true fits]
    rw [same] at longer
    exact ⟨['"'], _, _, by simpa using longer⟩
  | hexadecimal all => exact ⟨[], _, _, .hexadecimal (forall_mem_concat all fits)⟩
  | binary all => exact ⟨[], _, _, .binary (forall_mem_concat all fits)⟩
  | numeral isWhole =>
    simp only [moreOfWhole, Bool.or_eq_true, Bool.and_eq_true, decide_eq_true_eq] at fits
    rcases fits with (rfl | isMark) | ⟨digit, notZero⟩
    · exact ⟨[], _, _, .decimal isWhole (.point (List.forall_mem_nil _))⟩
    · exact ⟨[], _, _, .decimal isWhole (.exponent rfl (.mark isMark))⟩
    · exact ⟨[], _, _, .numeral (isWhole.concat notZero digit)⟩
  | decimal isWhole own =>
    obtain ⟨more', own'⟩ := own.concat fits
    have longer := Lexeme.decimal isWhole own'
    rw [← List.append_assoc] at longer
    exact ⟨[], more', _, longer⟩

/-- Neither a blank nor a closing parenthesis goes on with a lexeme. -/
theorem Lexeme.more_of_delimits (lexeme : Lexeme strict more w t) {c : Char}
    (delimits : isBlank c = true ∨ c = ')') : more c = false := by
  have listed : c = ' ' ∨ c = '\t' ∨ c = '\n' ∨ c = '\r' ∨ c = ')' := by
    simpa [isBlank, or_assoc] using delimits
  obtain ⟨name, hex, bit, digit, mark, sign, point, quote⟩ : isSymbolChar c = false ∧
      isHexDigit c = false ∧ isBit c = false ∧ c.isDigit = false ∧ isExponentMark c = false ∧
      isSign c = false ∧ decide (c = '.') = false ∧ decide (c = '"') = false := by
    rcases listed with rfl | rfl | rfl | rfl | rfl <;>
      exact ⟨rfl, rfl, rfl, rfl, rfl, rfl, rfl, rfl⟩
  have exponent {more : Char → Bool} {e : List Char} (own : Exponent more e) :
      more c = false := by
    cases own with
    | mark _ => exact Bool.or_eq_false_iff.mpr ⟨sign, digit⟩
    | signed _ _ _ => exact digit
    | unsigned _ _ => exact digit
  cases lexeme with
  | openParen => rfl
  | closeParen => rfl
  | symbol _ _ => exact name
  | quotedSymbol _ => rfl
  | string _ => exact quote
  | hexadecimal _ => exact hex
  | binary _ => exact bit
  | numeral _ => rw [moreOfWhole, point, mark, digit, Bool.false_and, Bool.or_false, Bool.or_false]
  | decimal _ own =>
    cases own with
    | point _ => exact Bool.or_eq_false_iff.mpr ⟨digit, mark⟩
    | exponent _ own => exact exponent own
    | both _ _ own => exact exponent own

theorem isSign_of_isDigit {c : Char} (digit : c.isDigit = true) : isSign c = false := by
  have plus : c ≠ '+' := ne_of_test digit rfl
  have minus : c ≠ '-' := ne_of_test digit rfl
  simp [isSign, plus, minus]

/-- What is not a decimal is complete. -/
theorem complete_of_kind (kind : TokenKind) (same : t.kind = kind) (other : kind ≠ .decimal) :
    Complete w t rest := fun decimal => absurd (same.symm.trans decimal) other

/-- A number that ends in a digit, or has something behind it, is complete. -/
theorem complete_of_digits (before : List Char) {digits : List Char}
    (all : ∀ c ∈ digits, c.isDigit = true) (some : digits ++ rest ≠ []) (t : Token) :
    Complete (before ++ digits) t rest := by
  rintro - ⟨c, last, breaksOff⟩
  rcases List.eq_nil_or_concat digits with rfl | ⟨others, d, rfl⟩
  · exact some
  · rw [List.concat_eq_append, ← List.append_assoc, List.getLast?_concat] at last
    cases last
    have digit := all c (by simp)
    rcases breaksOff with rfl | mark | sign
    · cases digit
    · rcases eq_of_isExponentMark mark with rfl | rfl <;> cases digit
    · rw [isSign_of_isDigit digit] at sign
      cases sign

end NetSpec
