import NetSpec.Text.Source
import NetSpec.Token.Basic

/-!
# Lexemes

`Scan.lexeme` reads one lexeme from characters that begin with one, and `Scan.gap` splits off
the blanks and comments before it. Both only divide what they are given: nothing is lost and
nothing is invented, as `lexeme_append` and `gap_append` say, and a lexeme is never empty.

A lexeme that goes on as long as characters fit it is known to be complete only by the
character behind it. Where there is none, the end of the text completes it as well, but a
failure of the source is met by looking there.
-/

namespace NetSpec

/-- Why no token can be read. -/
inductive LexicalError where
  | read (error : ReadError)
  | unexpectedChar (c : Char)
  | invalidNumberMark (c : Char)
  | strictDecimal (number : String)
  | unexpectedEnd
deriving DecidableEq, Repr

namespace LexicalError

/-- A character is needed behind the last one. -/
def missing : Option ReadError → LexicalError
  | none => .unexpectedEnd
  | some e => .read e

def message : LexicalError → String
  | read e => "io: " ++ e.text
  | unexpectedChar c => "unexpected character: " ++ c.toString
  | invalidNumberMark c => "invalid number prefix: #" ++ c.toString
  | strictDecimal number => "invalid decimal in strict mode: " ++ number
  | unexpectedEnd => "unexpected end of file"

end LexicalError

/-- Blanks may stand between lexemes. -/
def isBlank (c : Char) : Bool :=
  c = ' ' || c = '\t' || c = '\n' || c = '\r'

/-- A line ends at a line feed or a carriage return. -/
def isLineEnd (c : Char) : Bool :=
  c = '\n' || c = '\r'

/-- The characters that a symbol without bars may begin with. -/
def isSymbolStart (c : Char) : Bool :=
  c.isAlpha || c ∈ ['~', '!', '@', '$', '%', '^', '&', '*', '+', '=', '<', '>', '.', '?', '/',
    '_', '-']

/-- The characters that a symbol without bars may go on with. -/
def isSymbolChar (c : Char) : Bool :=
  isSymbolStart c || c.isDigit

/-- Digits in base sixteen, in either case. -/
def isHexDigit (c : Char) : Bool :=
  c.isDigit || ('a' ≤ c && c ≤ 'f') || ('A' ≤ c && c ≤ 'F')

/-- Digits in base two. -/
def isBit (c : Char) : Bool :=
  c = '0' || c = '1'

/-- An exponent begins with `e` in either case. -/
def isExponentMark (c : Char) : Bool :=
  c = 'e' || c = 'E'

/-- One attempt to read a lexeme: the characters read, those that follow, and the result. -/
structure Scan where
  taken : List Char
  rest : List Char
  outcome : Except LexicalError Token

namespace Scan

/-- The outcome of a lexeme that is complete unless more of it could follow: looking behind
the last character meets the failure of the source, if there is one. -/
def settle (failure : Option ReadError) (rest : List Char) (token : Token) :
    Except LexicalError Token :=
  match rest, failure with
  | [], some e => .error (.read e)
  | _, _ => .ok token

/-- Go on as long as the characters fit. -/
def run (failure : Option ReadError) (fits : Char → Bool) (token : String → Token)
    (taken cs : List Char) : Scan :=
  let taken := taken ++ cs.takeWhile fits
  let rest := cs.dropWhile fits
  ⟨taken, rest, settle failure rest (token (String.ofList taken))⟩

/-- A name between bars, given what follows the first bar. -/
def quotedSymbol (failure : Option ReadError) (cs : List Char) : Scan :=
  let name := cs.takeWhile (· ≠ '|')
  match cs.dropWhile (· ≠ '|') with
  | bar :: rest => ⟨'|' :: name ++ [bar], rest, .ok (.symbol (String.ofList name))⟩
  | [] => ⟨'|' :: name, [], .error (.missing failure)⟩

/-- Split behind the quote that closes a string, given what follows the first quote. A quote
that is written twice does not close it. -/
def closingQuote : List Char → Option (List Char × List Char)
  | [] => none
  | '"' :: '"' :: cs => (closingQuote cs).map fun (body, rest) => ('"' :: '"' :: body, rest)
  | '"' :: cs => some (['"'], cs)
  | c :: cs => (closingQuote cs).map fun (body, rest) => (c :: body, rest)

/-- A string, given what follows its first quote. -/
def string (failure : Option ReadError) (cs : List Char) : Scan :=
  match closingQuote cs with
  | some (body, rest) =>
    ⟨'"' :: body, rest, settle failure rest (.string (String.ofList ('"' :: body)))⟩
  | none => ⟨'"' :: cs, [], .error (.missing failure)⟩

/-- An optional sign. -/
def sign : List Char → List Char × List Char
  | [] => ([], [])
  | c :: cs => if c = '+' ∨ c = '-' then ([c], cs) else ([], c :: cs)

/-- An exponent, given the number up to its mark. The strict dialect has none. -/
def exponent (strict : Bool) (failure : Option ReadError) (number cs : List Char) : Scan :=
  if strict then ⟨number, cs, .error (.strictDecimal (String.ofList number))⟩
  else
    let (sign, cs) := sign cs
    if cs.isEmpty then ⟨number ++ sign, [], .error (.missing failure)⟩
    else run failure Char.isDigit .decimal (number ++ sign) cs

/-- The end of a number: an exponent, or nothing more. -/
def numberEnd (strict : Bool) (failure : Option ReadError) (token : String → Token)
    (number : List Char) : List Char → Scan
  | [] => ⟨number, [], settle failure [] (token (String.ofList number))⟩
  | c :: cs =>
    if isExponentMark c then exponent strict failure (number ++ [c]) cs
    else ⟨number, c :: cs, .ok (token (String.ofList number))⟩

/-- A number without a mark, given its first digit. Nothing follows a zero in front, so `007`
is three numerals. -/
def number (strict : Bool) (failure : Option ReadError) (first : Char) (cs : List Char) : Scan :=
  let more := if first = '0' then fun _ => false else Char.isDigit
  let whole := first :: cs.takeWhile more
  match cs.dropWhile more with
  | '.' :: rest =>
    if rest.isEmpty then ⟨whole ++ ['.'], [], .error (.missing failure)⟩
    else
      let places := rest.takeWhile Char.isDigit
      numberEnd strict failure .decimal (whole ++ '.' :: places) (rest.dropWhile Char.isDigit)
  | rest => numberEnd strict failure .numeral whole rest

/-- A number in base sixteen or two, given what follows the hash. -/
def markedNumber (failure : Option ReadError) : List Char → Scan
  | [] => ⟨['#'], [], .error (.missing failure)⟩
  | c :: cs =>
    if c = 'x' then run failure isHexDigit .hexadecimal ['#', c] cs
    else if c = 'b' then run failure isBit .binary ['#', c] cs
    else ⟨['#', c], cs, .error (.invalidNumberMark c)⟩

/-- The lexeme that begins with a given character. -/
def lexeme (strict : Bool) (failure : Option ReadError) (c : Char) (cs : List Char) : Scan :=
  if c = '(' then ⟨[c], cs, .ok .openParen⟩
  else if c = ')' then ⟨[c], cs, .ok .closeParen⟩
  else if c = '"' then string failure cs
  else if c = '|' then quotedSymbol failure cs
  else if c = '#' then markedNumber failure cs
  else if c.isDigit then number strict failure c cs
  else if isSymbolStart c then run failure isSymbolChar .symbol [c] cs
  else ⟨[c], cs, .error (.unexpectedChar c)⟩

/-- Split off the blanks and comments in front. A comment goes up to the end of its line or
of the text; `comment` says whether one has begun. -/
def gap (comment : Bool) : List Char → List Char × List Char
  | [] => ([], [])
  | c :: cs =>
    if comment then
      let (skipped, rest) := gap (!isLineEnd c) cs
      (c :: skipped, rest)
    else if c = ';' || isBlank c then
      let (skipped, rest) := gap (c = ';') cs
      (c :: skipped, rest)
    else ([], c :: cs)

theorem gap_append (comment : Bool) (cs : List Char) :
    (gap comment cs).1 ++ (gap comment cs).2 = cs := by
  induction cs generalizing comment with
  | nil => rfl
  | cons c cs ih =>
    unfold gap
    split
    · simp [ih]
    · split <;> simp [ih]

theorem run_append (failure : Option ReadError) (fits : Char → Bool) (token : String → Token)
    (taken cs : List Char) :
    (run failure fits token taken cs).taken ++ (run failure fits token taken cs).rest =
      taken ++ cs := by
  simp [run]

theorem quotedSymbol_append (failure : Option ReadError) (cs : List Char) :
    (quotedSymbol failure cs).taken ++ (quotedSymbol failure cs).rest = '|' :: cs := by
  have whole := List.takeWhile_append_dropWhile (p := fun c : Char => decide (c ≠ '|')) (l := cs)
  unfold quotedSymbol
  split
  next bar rest behind =>
    rw [behind] at whole
    simpa using whole
  next behind =>
    rw [behind] at whole
    simpa using whole

theorem closingQuote_append (cs : List Char) {body rest : List Char}
    (found : closingQuote cs = some (body, rest)) : body ++ rest = cs := by
  fun_induction closingQuote cs generalizing body with
  | case1 => simp at found
  | case2 cs ih =>
    obtain ⟨⟨b, r⟩, h, same⟩ := Option.map_eq_some_iff.mp found
    simp only [Prod.mk.injEq] at same
    obtain ⟨rfl, rfl⟩ := same
    simp [ih h]
  | case3 cs =>
    simp only [Option.some.injEq, Prod.mk.injEq] at found
    simp [← found.1, ← found.2]
  | case4 c cs _ _ ih =>
    obtain ⟨⟨b, r⟩, h, same⟩ := Option.map_eq_some_iff.mp found
    simp only [Prod.mk.injEq] at same
    obtain ⟨rfl, rfl⟩ := same
    simp [ih h]

theorem string_append (failure : Option ReadError) (cs : List Char) :
    (string failure cs).taken ++ (string failure cs).rest = '"' :: cs := by
  unfold string
  split
  next body rest found => simp [closingQuote_append cs found]
  next => simp

theorem sign_append (cs : List Char) : (sign cs).1 ++ (sign cs).2 = cs := by
  unfold sign
  split
  · rfl
  · split <;> rfl

theorem exponent_append (strict : Bool) (failure : Option ReadError) (number cs : List Char) :
    (exponent strict failure number cs).taken ++ (exponent strict failure number cs).rest =
      number ++ cs := by
  have signed := sign_append cs
  unfold exponent
  split
  next => rfl
  next =>
    dsimp only
    split
    next nothing =>
      rw [List.isEmpty_iff.mp nothing, List.append_nil] at signed
      rw [List.append_nil, signed]
    next => rw [run_append, List.append_assoc, signed]

theorem numberEnd_append (strict : Bool) (failure : Option ReadError) (token : String → Token)
    (number cs : List Char) :
    (numberEnd strict failure token number cs).taken ++
      (numberEnd strict failure token number cs).rest = number ++ cs := by
  unfold numberEnd
  split
  · rfl
  · split
    · simp [exponent_append]
    · rfl

theorem number_append (strict : Bool) (failure : Option ReadError) (c : Char) (cs : List Char) :
    (number strict failure c cs).taken ++ (number strict failure c cs).rest = c :: cs := by
  unfold number
  have whole := fun fits => List.takeWhile_append_dropWhile (p := fits) (l := cs)
  specialize whole (if c = '0' then fun _ => false else Char.isDigit)
  dsimp only
  split
  next rest point =>
    rw [point] at whole
    split
    next nothing =>
      rw [List.isEmpty_iff.mp nothing] at whole
      simp [whole]
    next => simp [numberEnd_append, whole]
  next => simp [numberEnd_append, whole]

theorem markedNumber_append (failure : Option ReadError) (cs : List Char) :
    (markedNumber failure cs).taken ++ (markedNumber failure cs).rest = '#' :: cs := by
  unfold markedNumber
  split
  next => rfl
  next c cs =>
    split
    next => exact run_append failure isHexDigit .hexadecimal ['#', c] cs
    next =>
      split
      next => exact run_append failure isBit .binary ['#', c] cs
      next => rfl

/-- The characters of a lexeme and those behind it are the characters given. -/
theorem lexeme_append (strict : Bool) (failure : Option ReadError) (c : Char) (cs : List Char) :
    (lexeme strict failure c cs).taken ++ (lexeme strict failure c cs).rest = c :: cs := by
  unfold lexeme
  split
  next => rfl
  split
  next => rfl
  split
  next isQuote => exact isQuote ▸ string_append failure cs
  split
  next isBar => exact isBar ▸ quotedSymbol_append failure cs
  split
  next isHash => exact isHash ▸ markedNumber_append failure cs
  split
  next => exact number_append strict failure c cs
  split
  next => exact run_append failure isSymbolChar .symbol [c] cs
  next => rfl

/-! ### A lexeme takes its first character -/

theorem run_begins (failure : Option ReadError) (fits : Char → Bool) (token : String → Token)
    (taken cs : List Char) : taken <+: (run failure fits token taken cs).taken :=
  List.prefix_append taken _

theorem quotedSymbol_begins (failure : Option ReadError) (cs : List Char) :
    ['|'] <+: (quotedSymbol failure cs).taken := by
  unfold quotedSymbol
  split
  next => exact List.prefix_append ['|'] _
  next => exact List.prefix_append ['|'] _

theorem string_begins (failure : Option ReadError) (cs : List Char) :
    ['"'] <+: (string failure cs).taken := by
  unfold string
  split
  next => exact List.prefix_append ['"'] _
  next => exact List.prefix_append ['"'] _

theorem exponent_begins (strict : Bool) (failure : Option ReadError) (number cs : List Char) :
    number <+: (exponent strict failure number cs).taken := by
  unfold exponent
  split
  next => exact List.prefix_refl number
  next =>
    dsimp only
    split
    next => exact List.prefix_append number _
    next => exact (List.prefix_append number _).trans (run_begins _ _ _ _ _)

theorem numberEnd_begins (strict : Bool) (failure : Option ReadError) (token : String → Token)
    (number cs : List Char) : number <+: (numberEnd strict failure token number cs).taken := by
  unfold numberEnd
  split
  next => exact List.prefix_refl number
  next =>
    split
    next => exact (List.prefix_append number _).trans (exponent_begins _ _ _ _)
    next => exact List.prefix_refl number

theorem number_begins (strict : Bool) (failure : Option ReadError) (c : Char) (cs : List Char) :
    [c] <+: (number strict failure c cs).taken := by
  have whole (digits behind : List Char) : [c] <+: c :: digits ++ behind :=
    List.prefix_append [c] (digits ++ behind)
  unfold number
  dsimp only
  split
  next =>
    split
    next => exact whole _ _
    next => exact (whole _ _).trans (numberEnd_begins _ _ _ _ _)
  next => exact (List.prefix_append [c] _).trans (numberEnd_begins _ _ _ _ _)

theorem markedNumber_begins (failure : Option ReadError) (cs : List Char) :
    ['#'] <+: (markedNumber failure cs).taken := by
  unfold markedNumber
  split
  next => exact List.prefix_refl ['#']
  next c _ =>
    have marked : ['#'] <+: ['#', c] := List.prefix_append ['#'] [c]
    split
    next => exact marked.trans (run_begins _ _ _ _ _)
    next =>
      split
      next => exact marked.trans (run_begins _ _ _ _ _)
      next => exact marked

/-- A lexeme takes its first character, also where it is none. -/
theorem lexeme_begins (strict : Bool) (failure : Option ReadError) (c : Char) (cs : List Char) :
    [c] <+: (lexeme strict failure c cs).taken := by
  unfold lexeme
  split
  next => exact List.prefix_refl [c]
  split
  next => exact List.prefix_refl [c]
  split
  next isQuote => exact isQuote ▸ string_begins failure cs
  split
  next isBar => exact isBar ▸ quotedSymbol_begins failure cs
  split
  next isHash => exact isHash ▸ markedNumber_begins failure cs
  split
  next => exact number_begins strict failure c cs
  split
  next => exact run_begins failure isSymbolChar .symbol [c] cs
  next => exact List.prefix_refl [c]

end Scan

end NetSpec
