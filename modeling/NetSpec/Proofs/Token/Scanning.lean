import NetSpec.Proofs.Token.Language
import NetSpec.Proofs.Token.Lexing

/-!
# Lexemes are taken as they are

In front of characters that do not go on with it a lexeme of the grammar is taken as it is.
The reader of lexemes is followed from the kinds of lexemes down to the parts of a number,
each of which ends where the grammar says that it does.
-/

namespace NetSpec

variable {strict : Bool} {more : Char → Bool} {w rest : List Char} {t : Token}

theorem Stops.dropWhile (fits : Char → Bool) (cs : List Char) :
    Stops fits (cs.dropWhile fits) := by
  intro c mem
  have head := List.head?_dropWhile_not fits cs
  rw [Option.mem_def.mp mem] at head
  exact head

theorem Complete.ne_nil {w rest : List Char} {number : String}
    (complete : Complete w (.decimal number) rest) {c : Char} (last : w.getLast? = some c)
    (breaksOff : c = '.' ∨ isExponentMark c = true ∨ isSign c = true) : rest ≠ [] :=
  complete rfl ⟨c, last, breaksOff⟩

theorem doubleQuotes_quote (cs : List Char) :
    doubleQuotes ('"' :: cs) = '"' :: '"' :: doubleQuotes cs := rfl

theorem doubleQuotes_other {c : Char} (other : c ≠ '"') (cs : List Char) :
    doubleQuotes (c :: cs) = c :: doubleQuotes cs := by
  rw [doubleQuotes, List.flatMap_cons, if_neg other]
  rfl

/-- A doubled quote does not close a text. -/
theorem Scan.closingQuote_doubleQuotes (cs : List Char) {rest : List Char}
    (single : rest.head? ≠ some '"') :
    Scan.closingQuote (doubleQuotes cs ++ '"' :: rest) =
      some (doubleQuotes cs ++ ['"'], rest) := by
  induction cs with
  | nil =>
    show Scan.closingQuote ('"' :: rest) = some (['"'], rest)
    cases rest with
    | nil => rfl
    | cons c rest =>
      have other : c ≠ '"' := fun same => single (congrArg some same)
      rw [Scan.closingQuote]
      simpa using other
  | cons c cs ih =>
    by_cases quote : c = '"'
    · rw [quote, doubleQuotes_quote, List.cons_append, List.cons_append, Scan.closingQuote, ih]
      rfl
    · rw [doubleQuotes_other quote, List.cons_append, Scan.closingQuote, ih]
      · rfl
      · intro rest same
        exact absurd same quote
      · exact quote

namespace Scan

@[simp] theorem settle_none (rest : List Char) (t : Token) : settle none rest t = .ok t := by
  cases rest <;> rfl

/-- A run ends at what stops it. -/
theorem run_of_stops {fits : Char → Bool} {cs rest : List Char} (token : String → Token)
    (taken : List Char) (all : ∀ c ∈ cs, fits c = true) (stops : Stops fits rest) :
    run none fits token taken (cs ++ rest) =
      ⟨taken ++ cs, rest, .ok (token (String.ofList (taken ++ cs)))⟩ := by
  rw [run, takeWhile_append_of_stops all stops, dropWhile_append_of_stops all stops, settle_none]

theorem lexeme_symbol {strict : Bool} {c : Char} (start : isSymbolStart c = true)
    (notDigit : c.isDigit = false) (cs : List Char) :
    lexeme strict none c cs = run none isSymbolChar .symbol [c] cs := by
  have differs (d : Char) (other : isSymbolStart d = false) : c ≠ d := ne_of_test start other
  rw [lexeme, if_neg (differs _ rfl), if_neg (differs _ rfl), if_neg (differs _ rfl),
    if_neg (differs _ rfl), if_neg (differs _ rfl), notDigit, if_neg Bool.false_ne_true,
    if_pos start]

theorem lexeme_digit {strict : Bool} {c : Char} (digit : c.isDigit = true) (cs : List Char) :
    lexeme strict none c cs = number strict none c cs := by
  have differs (d : Char) (other : d.isDigit = false) : c ≠ d := ne_of_test digit other
  rw [lexeme, if_neg (differs _ rfl), if_neg (differs _ rfl), if_neg (differs _ rfl),
    if_neg (differs _ rfl), if_neg (differs _ rfl), if_pos digit]

theorem numberEnd_of_stops (token : String → Token) (number : List Char)
    (stops : Stops isExponentMark rest) :
    numberEnd strict none token number rest =
      ⟨number, rest, .ok (token (String.ofList number))⟩ := by
  cases rest with
  | nil => rfl
  | cons c rest =>
    rw [numberEnd, stops c rfl]
    rfl

theorem sign_of_isSign {s : Char} (isSign : isSign s = true) (cs : List Char) :
    sign (s :: cs) = ([s], cs) := by
  have either : s = '+' ∨ s = '-' := by simpa [NetSpec.isSign] using isSign
  exact if_pos either

theorem sign_of_stops {cs : List Char} (stops : Stops isSign cs) : sign cs = ([], cs) := by
  cases cs with
  | nil => rfl
  | cons c cs =>
    have neither : ¬ (c = '+' ∨ c = '-') := by simpa [isSign] using stops c rfl
    exact if_neg neither

/-- Behind its mark and a sign, or none, an exponent is read up to the end of its digits. -/
theorem numberEnd_of_sign (token : String → Token) (number signs digits : List Char) {m : Char}
    (isMark : isExponentMark m = true)
    (signed : sign (signs ++ (digits ++ rest)) = (signs, digits ++ rest))
    (all : ∀ c ∈ digits, c.isDigit = true) (stops : Stops Char.isDigit rest)
    (some : digits ++ rest ≠ []) :
    numberEnd false none token number (m :: (signs ++ (digits ++ rest))) =
      ⟨number ++ m :: (signs ++ digits), rest,
        .ok (.decimal (String.ofList (number ++ m :: (signs ++ digits))))⟩ := by
  have notEmpty : (digits ++ rest).isEmpty = false := by simpa using some
  rw [numberEnd, if_pos isMark, exponent, if_neg Bool.false_ne_true, signed]
  dsimp only
  rw [notEmpty, if_neg Bool.false_ne_true, run_of_stops _ _ all stops, List.append_assoc,
    List.append_assoc]
  rfl

/-- The digits before the point end there: nothing goes on behind a zero in front. -/
theorem whole_of_stops {first : Char} {whole behind : List Char}
    (isWhole : IsWhole (first :: whole)) (stops : first ≠ '0' → Stops Char.isDigit behind) :
    (whole ++ behind).takeWhile (if first = '0' then fun _ => false else Char.isDigit) = whole ∧
      (whole ++ behind).dropWhile (if first = '0' then fun _ => false else Char.isDigit) =
        behind := by
  by_cases zero : first = '0'
  · have alone : whole = [] := by
      have leading := isWhole.leading (by rw [zero]; rfl)
      exact (List.cons.inj leading).2
    rw [if_pos zero, alone, List.nil_append]
    cases behind <;> exact ⟨rfl, rfl⟩
  · have all : ∀ c ∈ whole, c.isDigit = true :=
      fun c mem => isWhole.digits c (List.mem_cons_of_mem first mem)
    rw [if_neg zero]
    exact ⟨takeWhile_append_of_stops all (stops zero), dropWhile_append_of_stops all (stops zero)⟩

section Number

variable {first : Char} {whole behind : List Char} (isWhole : IsWhole (first :: whole))

include isWhole

/-- Without a point a number ends behind its first digits. -/
theorem number_of_whole (digits : first ≠ '0' → Stops Char.isDigit behind)
    (point : Stops (· = '.') behind) :
    number strict none first (whole ++ behind) =
      numberEnd strict none .numeral (first :: whole) behind := by
  obtain ⟨take, drop⟩ := whole_of_stops isWhole digits
  rw [number]
  dsimp only
  rw [take, drop]
  split
  next pointed => exact absurd (point '.' rfl) (by decide)
  next => rfl

/-- With a point it goes on with the digits behind it, and needs something there. -/
theorem number_of_point {places : List Char} (all : ∀ d ∈ places, d.isDigit = true)
    (digits : Stops Char.isDigit behind) (more : places ++ behind ≠ []) :
    number strict none first (whole ++ '.' :: (places ++ behind)) =
      numberEnd strict none .decimal (first :: whole ++ '.' :: places) behind := by
  obtain ⟨take, drop⟩ := whole_of_stops isWhole fun _ => .cons (c := '.') rfl (places ++ behind)
  rw [number]
  dsimp only
  rw [take, drop]
  show (if (places ++ behind).isEmpty = true then _ else
    numberEnd strict none _ (first :: whole ++ '.' :: List.takeWhile _ (places ++ behind))
      (List.dropWhile _ (places ++ behind))) = _
  rw [if_neg (by simpa using more), takeWhile_append_of_stops all digits,
    dropWhile_append_of_stops all digits]

end Number

end Scan

/-- An exponent is read behind any number. -/
theorem Exponent.scan {e : List Char} (own : Exponent more e) (stops : Stops more rest)
    (token : String → Token) (number : List Char)
    (complete : Complete (number ++ e) (.decimal (String.ofList (number ++ e))) rest) :
    Scan.numberEnd false none token number (e ++ rest) =
      ⟨number ++ e, rest, .ok (.decimal (String.ofList (number ++ e)))⟩ := by
  cases own with
  | @mark m isMark =>
    have some : rest ≠ [] := complete.ne_nil List.getLast?_concat (.inr (.inl isMark))
    have signs : Stops isSign rest := fun c mem => (Bool.or_eq_false_iff.mp (stops c mem)).1
    have digits : Stops Char.isDigit rest := fun c mem => (Bool.or_eq_false_iff.mp (stops c mem)).2
    exact Scan.numberEnd_of_sign token number [] [] isMark (Scan.sign_of_stops signs)
      (List.forall_mem_nil _) digits some
  | @signed m s digits isMark sign all =>
    have some : digits ++ rest ≠ [] := by
      cases digits with
      | nil =>
        have last : (number ++ [m, s]).getLast? = some s := by simp
        exact complete.ne_nil last (.inr (.inr sign))
      | cons d digits => exact List.cons_ne_nil _ _
    exact Scan.numberEnd_of_sign token number [s] digits isMark (Scan.sign_of_isSign sign _) all
      stops some
  | @unsigned m d digits isMark all =>
    have noSign : Stops isSign (d :: digits ++ rest) :=
      .cons (isSign_of_isDigit (all d List.mem_cons_self)) _
    exact Scan.numberEnd_of_sign token number [] (d :: digits) isMark (Scan.sign_of_stops noSign)
      all stops (List.cons_ne_nil _ _)

/-- A mark is no part of what stands before it in a number. -/
theorem stops_of_isExponentMark {fits : Char → Bool} {m : Char} {cs : List Char}
    (isMark : isExponentMark m = true) (small : fits 'e' = false) (capital : fits 'E' = false) :
    Stops fits (m :: cs) := by
  refine .cons ?_ cs
  rcases eq_of_isExponentMark isMark with rfl | rfl
  · exact small
  · exact capital

theorem DecimalTail.scan {first : Char} {whole tail : List Char}
    (own : DecimalTail strict more tail) (isWhole : IsWhole (first :: whole))
    (stops : Stops more rest)
    (complete : Complete (first :: whole ++ tail)
      (.decimal (String.ofList (first :: whole ++ tail))) rest) :
    Scan.number strict none first (whole ++ (tail ++ rest)) =
      ⟨first :: whole ++ tail, rest, .ok (.decimal (String.ofList (first :: whole ++ tail)))⟩ := by
  cases own with
  | @point places all =>
    have digits : Stops Char.isDigit rest := fun c mem => (Bool.or_eq_false_iff.mp (stops c mem)).1
    have marks : Stops isExponentMark rest := fun c mem => (Bool.or_eq_false_iff.mp (stops c mem)).2
    have some : places ++ rest ≠ [] := by
      cases places with
      | nil => exact complete.ne_nil List.getLast?_concat (.inl rfl)
      | cons d places => exact List.cons_ne_nil _ _
    have read : Scan.number strict none first _ = _ :=
      Scan.number_of_point isWhole all digits some
    rwa [Scan.numberEnd_of_stops _ _ marks] at read
  | @exponent _ e lax own =>
    obtain ⟨m, others, rfl, isMark⟩ := own.exists_cons
    have digits : Stops Char.isDigit (m :: others ++ rest) :=
      stops_of_isExponentMark isMark rfl rfl
    have point : Stops (· = '.') (m :: others ++ rest) := stops_of_isExponentMark isMark rfl rfl
    rw [Scan.number_of_whole isWhole (fun _ => digits) point, lax]
    exact own.scan stops _ _ complete
  | @both places _ e lax all own =>
    obtain ⟨m, others, rfl, isMark⟩ := own.exists_cons
    have digits : Stops Char.isDigit (m :: others ++ rest) :=
      stops_of_isExponentMark isMark rfl rfl
    have some : places ++ (m :: others ++ rest) ≠ [] := by simp
    have read : Scan.number strict none first _ = _ :=
      Scan.number_of_point isWhole all digits some
    have assoc : first :: whole ++ '.' :: (places ++ m :: others) =
        first :: whole ++ '.' :: places ++ m :: others := by simp
    rw [assoc] at complete ⊢
    rw [lax, own.scan stops _ _ complete] at read
    rw [lax, List.cons_append, List.append_assoc]
    exact read

theorem eq_of_isBlank {c : Char} (blank : isBlank c = true) :
    c = ' ' ∨ c = '\t' ∨ c = '\n' ∨ c = '\r' := by
  simpa [isBlank, or_assoc] using blank

theorem isSymbolChar_of_isBlank {c : Char} (blank : isBlank c = true) :
    isSymbolChar c = false := by
  rcases eq_of_isBlank blank with rfl | rfl | rfl | rfl <;> rfl

theorem isSymbolChar_of_isDigit {c : Char} (digit : c.isDigit = true) :
    isSymbolChar c = true := by
  rw [isSymbolChar, digit, Bool.or_true]

theorem beginsLexeme_of_isSymbolChar {c : Char} (fits : isSymbolChar c = true) :
    BeginsLexeme c := by
  refine ⟨ne_of_test fits rfl, ?_⟩
  cases blank : isBlank c with
  | false => rfl
  | true => exact absurd ((isSymbolChar_of_isBlank blank).symm.trans fits) Bool.false_ne_true

theorem moreOfWhole_eq_false {whole : List Char} {c : Char} (no : moreOfWhole whole c = false) :
    decide (c = '.') = false ∧ isExponentMark c = false ∧
      (whole ≠ ['0'] → c.isDigit = false) := by
  simp only [moreOfWhole, Bool.or_eq_false_iff, Bool.and_eq_false_imp] at no
  refine ⟨no.1.1, no.1.2, fun notZero => ?_⟩
  cases digit : c.isDigit with
  | false => rfl
  | true => exact absurd (no.2 digit) (by simpa using notZero)

/-- A lexeme is taken if what follows does not go on with it. -/
theorem Lexeme.scan (lexeme : Lexeme strict more w t) (stops : Stops more rest)
    (complete : Complete w t rest) : ∃ first others, w = first :: others ∧ BeginsLexeme first ∧
      Scan.lexeme strict none first (others ++ rest) = ⟨w, rest, .ok t⟩ := by
  have begins {c : Char} (digit : c.isDigit = true) : BeginsLexeme c :=
    beginsLexeme_of_isSymbolChar (isSymbolChar_of_isDigit digit)
  cases lexeme with
  | openParen => exact ⟨'(', [], rfl, ⟨by decide, rfl⟩, rfl⟩
  | closeParen => exact ⟨')', [], rfl, ⟨by decide, rfl⟩, rfl⟩
  | @symbol first others start all =>
    refine ⟨first, others, rfl, ?_, ?_⟩
    · exact beginsLexeme_of_isSymbolChar (by rw [isSymbolChar, start, Bool.true_or])
    · rw [Scan.lexeme_symbol start (isDigit_of_isSymbolStart start),
        Scan.run_of_stops _ _ all stops]
      rfl
  | @quotedSymbol name noBar =>
    refine ⟨'|', name ++ ['|'], rfl, ⟨by decide, rfl⟩, ?_⟩
    have all : ∀ c ∈ name, decide (c ≠ '|') = true := by
      intro c mem
      exact decide_eq_true fun same => noBar (same ▸ mem)
    have stops : Stops (fun c => decide (c ≠ '|')) ('|' :: rest) := .cons rfl rest
    show Scan.quotedSymbol none (name ++ ['|'] ++ rest) = _
    rw [List.append_assoc, List.singleton_append, Scan.quotedSymbol,
      takeWhile_append_of_stops all stops, dropWhile_append_of_stops all stops]
  | string body =>
    refine ⟨'"', doubleQuotes body ++ ['"'], rfl, ⟨by decide, rfl⟩, ?_⟩
    have single : rest.head? ≠ some '"' := fun same => absurd (stops '"' same) (by decide)
    show Scan.string none (doubleQuotes body ++ ['"'] ++ rest) = _
    rw [List.append_assoc, List.singleton_append, Scan.string,
      Scan.closingQuote_doubleQuotes body single]
    dsimp only
    rw [Scan.settle_none]
    rfl
  | @hexadecimal digits all =>
    refine ⟨'#', 'x' :: digits, rfl, ⟨by decide, rfl⟩, ?_⟩
    exact Scan.run_of_stops _ _ all stops
  | @binary digits all =>
    refine ⟨'#', 'b' :: digits, rfl, ⟨by decide, rfl⟩, ?_⟩
    exact Scan.run_of_stops _ _ all stops
  | numeral isWhole =>
    obtain ⟨first, others, rfl, digit⟩ := isWhole.exists_cons
    refine ⟨first, others, rfl, begins digit, ?_⟩
    have point : Stops (· = '.') rest := fun c mem => (moreOfWhole_eq_false (stops c mem)).1
    have marks : Stops isExponentMark rest := fun c mem => (moreOfWhole_eq_false (stops c mem)).2.1
    have digits : first ≠ '0' → Stops Char.isDigit rest := by
      intro notZero c mem
      refine (moreOfWhole_eq_false (stops c mem)).2.2 fun same => notZero ?_
      exact (List.cons.inj same).1
    rw [Scan.lexeme_digit digit, Scan.number_of_whole isWhole digits point,
      Scan.numberEnd_of_stops _ _ marks]
  | @decimal whole tail _ isWhole own =>
    obtain ⟨first, others, rfl, digit⟩ := isWhole.exists_cons
    refine ⟨first, others ++ tail, rfl, begins digit, ?_⟩
    rw [Scan.lexeme_digit digit, List.append_assoc]
    exact own.scan isWhole stops complete

/-- In front of a blank every lexeme is taken, for nothing goes on with it. -/
theorem Lexeme.scan_blank {c : Char} (lexeme : Lexeme strict more (c :: w) t) :
    Scan.lexeme strict none c (w ++ [' ']) = ⟨c :: w, [' '], .ok t⟩ := by
  have blank : Stops more [' '] := .cons (lexeme.more_of_delimits (.inl rfl)) []
  obtain ⟨first, others, same, -, read⟩ := lexeme.scan blank fun _ _ => List.cons_ne_nil _ _
  obtain ⟨rfl, rfl⟩ := List.cons.inj same
  exact read

end NetSpec
