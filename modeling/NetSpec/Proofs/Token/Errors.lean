import NetSpec.Proofs.Token.Reading

/-!
# Where a lexeme goes wrong

A lexeme is read as far as characters go on with it. It is given up in two ways only. Its source may
end, or fail, behind characters that a lexeme goes on with. Or there is a character in the way, with
which no lexeme goes on, and then this is the first such character. So an error stands as far in
front as it can: all that has been taken in front of it begins a lexeme.

`Scan.Breaks` says this of one lexeme, and `Scan.lexeme_breaks` follows the reader of lexemes.
-/

namespace NetSpec

/-- A lexeme of the dialect begins with these characters and goes on behind them. -/
def GoesOn (strict : Bool) (w : List Char) : Prop :=
  ∃ c behind more t, Lexeme strict more (w ++ c :: behind) t

/-- How the reading of a lexeme breaks off. -/
inductive Scan.Breaks (strict : Bool) (failure : Option ReadError) :
    (w rest : List Char) → LexicalError → Prop where
  /-- Nothing follows, although a lexeme goes on there. -/
  | unfinished {w : List Char} (goesOn : GoesOn strict w) :
    Breaks strict failure w [] (.missing failure)
  /-- A character follows with which no lexeme goes on. -/
  | wrong {w rest : List Char} {d : Char} {e : LexicalError} (goesOn : GoesOn strict w)
    (stuck : ¬ GoesOn strict (w ++ [d])) (notRead : ∀ r, e ≠ .read r) :
    Breaks strict failure (w ++ [d]) rest e

variable {strict : Bool}

theorem goesOn_nil : GoesOn strict [] := ⟨'(', [], _, _, .openParen⟩

/-- Where a scan is wrong whatever follows, no lexeme goes on. -/
theorem not_goesOn_of_error {c : Char} {w : List Char} {e : LexicalError}
    (wrong : ∀ cs, (Scan.lexeme strict none c (w ++ cs)).outcome = .error e) :
    ¬ GoesOn strict (c :: w) := by
  rintro ⟨d, behind, more, t, longer⟩
  rw [List.cons_append] at longer
  have failed := wrong (d :: behind ++ [' '])
  rw [← List.append_assoc, longer.scan_blank] at failed
  cases failed

/-! ### Numbers -/

/-- The digits of a number in front of its mark. -/
inductive Mantissa : List Char → Prop where
  | whole {whole : List Char} (isWhole : IsWhole whole) : Mantissa whole
  | point {whole places : List Char} (isWhole : IsWhole whole)
    (all : ∀ c ∈ places, c.isDigit = true) : Mantissa (whole ++ '.' :: places)

namespace Mantissa

variable {number : List Char}

/-- A point goes on with the whole part of a number, and a digit with its places. -/
theorem goesOn (mantissa : Mantissa number) : GoesOn strict number := by
  cases mantissa with
  | whole isWhole => exact ⟨'.', [], _, _, .decimal isWhole (.point (List.forall_mem_nil _))⟩
  | point isWhole all =>
    have longer : Lexeme strict _ _ _ :=
      .decimal isWhole (.point (forall_mem_concat all (rfl : Char.isDigit '0' = true)))
    rw [← List.cons_append, ← List.append_assoc] at longer
    exact ⟨'0', [], _, _, longer⟩

/-- Behind either an exponent makes a decimal. -/
theorem exists_decimal (mantissa : Mantissa number) {more : Char → Bool} {e : List Char}
    (own : Exponent more e) : ∃ t, Lexeme false more (number ++ e) t := by
  cases mantissa with
  | whole isWhole => exact ⟨_, .decimal isWhole (.exponent rfl own)⟩
  | point isWhole all =>
    have decimal := Lexeme.decimal isWhole (.both rfl all own)
    rw [← List.cons_append, ← List.append_assoc] at decimal
    exact ⟨_, decimal⟩

/-- In the strict dialect nothing goes on with a mark. -/
theorem not_goesOn_mark (mantissa : Mantissa number) {m : Char}
    (isMark : isExponentMark m = true) : ¬ GoesOn true (number ++ [m]) := by
  have refused (token : String → Token) (number cs : List Char) :
      (Scan.numberEnd true none token number (m :: cs)).outcome =
        .error (.strictDecimal (String.ofList (number ++ [m]))) := by
    rw [Scan.numberEnd, if_pos isMark]
    rfl
  have digits (cs : List Char) : Stops Char.isDigit (m :: cs) :=
    stops_of_isExponentMark isMark rfl rfl
  have point (cs : List Char) : Stops (· = '.') (m :: cs) :=
    stops_of_isExponentMark isMark rfl rfl
  cases mantissa with
  | whole isWhole =>
    obtain ⟨first, others, rfl, digit⟩ := isWhole.exists_cons
    have wrong (cs : List Char) :
        (Scan.lexeme true none first (others ++ [m] ++ cs)).outcome =
          .error (.strictDecimal (String.ofList (first :: others ++ [m]))) := by
      rw [Scan.lexeme_digit digit, List.append_assoc, List.singleton_append,
        Scan.number_of_whole isWhole (fun _ => digits cs) (point cs), refused]
    exact not_goesOn_of_error wrong
  | @point whole places isWhole all =>
    obtain ⟨first, others, rfl, digit⟩ := isWhole.exists_cons
    have wrong (cs : List Char) :
        (Scan.lexeme true none first (others ++ '.' :: places ++ [m] ++ cs)).outcome =
          .error (.strictDecimal (String.ofList (first :: others ++ '.' :: places ++ [m]))) := by
      have some : places ++ m :: cs ≠ [] :=
        List.append_ne_nil_of_right_ne_nil _ (List.cons_ne_nil _ _)
      rw [Scan.lexeme_digit digit, List.append_assoc, List.append_assoc, List.singleton_append,
        List.cons_append, Scan.number_of_point isWhole all (digits cs) some, refused]
    exact not_goesOn_of_error wrong

end Mantissa

/-- One more digit makes an exponent of a mark, a sign or none, and digits. -/
theorem exists_exponent_concat {m : Char} {signs digits : List Char}
    (isMark : isExponentMark m = true) (sign : signs = [] ∨ ∃ s, signs = [s] ∧ isSign s = true)
    (all : ∀ c ∈ digits, c.isDigit = true) :
    ∃ more, Exponent more (m :: (signs ++ (digits ++ ['0']))) := by
  have longer := forall_mem_concat all (rfl : Char.isDigit '0' = true)
  rcases sign with rfl | ⟨s, rfl, isSign⟩
  · cases digits with
    | nil => exact ⟨_, .unsigned isMark longer⟩
    | cons d digits => exact ⟨_, .unsigned isMark longer⟩
  · exact ⟨_, .signed isMark isSign longer⟩

/-! ### The reader of lexemes -/

namespace Scan

variable {failure : Option ReadError} {w rest : List Char} {e : LexicalError}

theorem eq_of_settle {token : Token} (read : settle failure rest token = .error e) :
    rest = [] ∧ e = .missing failure := by
  cases rest with
  | nil =>
    cases failure with
    | none => cases read
    | some r =>
      cases read
      exact ⟨rfl, rfl⟩
  | cons d rest => cases read

/-- A run breaks off only behind all characters. -/
theorem eq_of_run {fits : Char → Bool} {token : String → Token} {taken cs : List Char}
    (read : run failure fits token taken cs = ⟨w, rest, .error e⟩) :
    w = taken ++ cs ∧ (∀ c ∈ cs, fits c = true) ∧ rest = [] ∧ e = .missing failure := by
  simp only [run, Scan.mk.injEq] at read
  obtain ⟨rfl, rfl, settled⟩ := read
  obtain ⟨atEnd, missing⟩ := eq_of_settle settled
  have whole := List.takeWhile_append_dropWhile (p := fits) (l := cs)
  rw [atEnd, List.append_nil] at whole
  refine ⟨by rw [whole], fun c mem => ?_, atEnd, missing⟩
  rw [← whole] at mem
  exact List.mem_takeWhile_imp mem

theorem eq_doubleQuotes_of_closingQuote {cs : List Char} (none : closingQuote cs = none) :
    ∃ body, cs = doubleQuotes body := by
  fun_induction closingQuote cs with
  | case1 => exact ⟨[], rfl⟩
  | case2 cs ih =>
    obtain ⟨body, rfl⟩ := ih (Option.map_eq_none_iff.mp none)
    exact ⟨'"' :: body, rfl⟩
  | case3 => cases none
  | case4 c cs _ other ih =>
    obtain ⟨body, rfl⟩ := ih (Option.map_eq_none_iff.mp none)
    have notQuote : c ≠ '"' := other
    exact ⟨c :: body, (doubleQuotes_other notQuote body).symm⟩

theorem string_breaks {cs : List Char} (read : string failure cs = ⟨w, rest, .error e⟩) :
    Breaks strict failure w rest e := by
  rw [string] at read
  split at read
  next body behind found =>
    simp only [Scan.mk.injEq] at read
    obtain ⟨rfl, rfl, settled⟩ := read
    obtain ⟨rfl, rfl⟩ := eq_of_settle settled
    obtain ⟨inner, rfl, -⟩ := closingQuote_ok found
    -- Another quote would have been the second of two.
    have longer : Lexeme strict _ _ _ := .string (inner ++ ['"'])
    have twice : doubleQuotes (inner ++ ['"']) = doubleQuotes inner ++ ['"', '"'] := by
      simp [doubleQuotes]
    rw [twice] at longer
    exact .unfinished ⟨'"', ['"'], _, _, by simpa using longer⟩
  next none =>
    cases read
    obtain ⟨body, rfl⟩ := eq_doubleQuotes_of_closingQuote none
    exact .unfinished ⟨'"', [], _, _, .string body⟩

theorem quotedSymbol_breaks {cs : List Char}
    (read : quotedSymbol failure cs = ⟨w, rest, .error e⟩) : Breaks strict failure w rest e := by
  rw [quotedSymbol] at read
  split at read
  next => cases read
  next =>
    cases read
    have noBar : '|' ∉ cs.takeWhile fun c => decide (c ≠ '|') :=
      fun mem => by simpa using List.mem_takeWhile_imp mem
    exact .unfinished ⟨'|', [], _, _, .quotedSymbol noBar⟩

theorem exponent_breaks {number cs : List Char} {m : Char} (mantissa : Mantissa number)
    (isMark : isExponentMark m = true)
    (read : exponent strict failure (number ++ [m]) cs = ⟨w, rest, .error e⟩) :
    Breaks strict failure w rest e := by
  cases strict with
  | true =>
    cases read
    exact .wrong mantissa.goesOn (mantissa.not_goesOn_mark isMark) nofun
  | false =>
    rw [exponent, if_neg Bool.false_ne_true] at read
    have goesOn {signs digits : List Char}
        (sign : signs = [] ∨ ∃ s, signs = [s] ∧ isSign s = true)
        (all : ∀ c ∈ digits, c.isDigit = true) :
        GoesOn false (number ++ [m] ++ signs ++ digits) := by
      obtain ⟨more, own⟩ := exists_exponent_concat isMark sign all
      obtain ⟨t, decimal⟩ := mantissa.exists_decimal own
      exact ⟨'0', [], more, t, by simpa using decimal⟩
    obtain ⟨signs, others, signed, sign⟩ : ∃ signs others, Scan.sign cs = (signs, others) ∧
        (signs = [] ∨ ∃ s, signs = [s] ∧ isSign s = true) := by
      rcases sign_cases cs with ⟨s, others, -, isSign, signed⟩ | ⟨-, signed⟩
      · exact ⟨[s], others, signed, .inr ⟨s, rfl, isSign⟩⟩
      · exact ⟨[], cs, signed, .inl rfl⟩
    rw [signed] at read
    dsimp only at read
    split at read
    next =>
      cases read
      have begun := goesOn sign (List.forall_mem_nil _)
      rw [List.append_nil] at begun
      exact .unfinished begun
    next =>
      obtain ⟨rfl, all, rfl, rfl⟩ := eq_of_run read
      exact .unfinished (goesOn sign all)

theorem numberEnd_breaks {token : String → Token} {number cs : List Char}
    (mantissa : Mantissa number)
    (read : numberEnd strict failure token number cs = ⟨w, rest, .error e⟩) :
    Breaks strict failure w rest e := by
  cases cs with
  | nil =>
    simp only [numberEnd, Scan.mk.injEq] at read
    obtain ⟨rfl, rfl, settled⟩ := read
    obtain ⟨-, rfl⟩ := eq_of_settle settled
    exact .unfinished mantissa.goesOn
  | cons c cs =>
    rw [numberEnd] at read
    split at read
    next isMark => exact exponent_breaks mantissa isMark read
    next => cases read

theorem number_breaks {c : Char} {cs : List Char} (digit : c.isDigit = true)
    (read : number strict failure c cs = ⟨w, rest, .error e⟩) :
    Breaks strict failure w rest e := by
  have isWhole := isWhole_takeWhile digit cs
  rw [number] at read
  dsimp only at read
  generalize c :: cs.takeWhile (if c = '0' then fun _ => false else Char.isDigit) = whole at *
  split at read
  next others _ =>
    split at read
    next =>
      cases read
      exact .unfinished (Mantissa.point isWhole (List.forall_mem_nil _)).goesOn
    next =>
      have all : ∀ d ∈ others.takeWhile Char.isDigit, d.isDigit = true :=
        fun d => List.mem_takeWhile_imp
      exact numberEnd_breaks (.point isWhole all) read
  next => exact numberEnd_breaks (.whole isWhole) read

theorem markedNumber_breaks {cs : List Char}
    (read : markedNumber failure cs = ⟨w, rest, .error e⟩) : Breaks strict failure w rest e := by
  cases cs with
  | nil =>
    cases read
    exact .unfinished ⟨'x', [], _, _, .hexadecimal (List.forall_mem_nil _)⟩
  | cons c cs =>
    have begun : GoesOn strict ['#'] :=
      ⟨'x', [], _, _, .hexadecimal (List.forall_mem_nil _)⟩
    simp only [markedNumber] at read
    split at read
    next hex =>
      obtain ⟨rfl, all, rfl, rfl⟩ := eq_of_run read
      rw [hex]
      exact .unfinished ⟨'0', [], _, _, .hexadecimal (forall_mem_concat all rfl)⟩
    next notHex =>
      split at read
      next binary =>
        obtain ⟨rfl, all, rfl, rfl⟩ := eq_of_run read
        rw [binary]
        exact .unfinished ⟨'0', [], _, _, .binary (forall_mem_concat all rfl)⟩
      next notBinary =>
        cases read
        have refused (cs : List Char) :
            (markedNumber none (c :: cs)).outcome = .error (.invalidNumberMark c) := by
          rw [markedNumber, if_neg notHex, if_neg notBinary]
        have stuck : ¬ GoesOn strict ['#', c] := not_goesOn_of_error refused
        have notRead (r : ReadError) : LexicalError.invalidNumberMark c ≠ .read r := by
          intro same
          cases same
        exact .wrong begun stuck notRead

/-- The reading of a lexeme breaks off where its source does, or at the first character with which
no lexeme goes on. -/
theorem lexeme_breaks {c : Char} {cs : List Char}
    (read : lexeme strict failure c cs = ⟨w, rest, .error e⟩) : Breaks strict failure w rest e := by
  simp only [lexeme] at read
  split at read
  next => cases read
  split at read
  next => cases read
  split at read
  next => exact string_breaks read
  split at read
  next => exact quotedSymbol_breaks read
  split at read
  next => exact markedNumber_breaks read
  split at read
  next digit => exact number_breaks digit read
  split at read
  next start =>
    obtain ⟨rfl, all, rfl, rfl⟩ := eq_of_run read
    exact .unfinished ⟨'0', [], _, _, .symbol start (forall_mem_concat all rfl)⟩
  next =>
    cases read
    have refused (cs : List Char) :
        (lexeme strict none c cs).outcome = .error (.unexpectedChar c) := by
      simp [lexeme, *]
    have stuck : ¬ GoesOn strict [c] := not_goesOn_of_error refused
    have notRead (r : ReadError) : LexicalError.unexpectedChar c ≠ .read r := by
      intro same
      cases same
    exact .wrong goesOn_nil stuck notRead

/-- A failure that is met is that of the source, and a lexeme goes on behind all characters. -/
theorem goesOn_of_met {c : Char} {cs : List Char} {r : ReadError}
    (met : (lexeme strict failure c cs).outcome = .error (.read r)) :
    failure = some r ∧ GoesOn strict (c :: cs) := by
  have taken := lexeme_append strict failure c cs
  rcases read : lexeme strict failure c cs with ⟨w, rest, outcome⟩
  rw [read] at met taken
  obtain rfl : outcome = .error (.read r) := met
  have breaks : Breaks strict failure w rest (.read r) := lexeme_breaks read
  generalize same : LexicalError.read r = e at breaks
  cases breaks with
  | unfinished goesOn =>
    rw [List.append_nil] at taken
    obtain rfl : w = c :: cs := taken
    cases failure with
    | none => cases same
    | some r' =>
      cases same
      exact ⟨rfl, goesOn⟩
  | wrong _ _ notRead => exact absurd same.symm (notRead r)

/-- A text in memory is read without a failure of its source. -/
theorem lexeme_ne_read (strict : Bool) (c : Char) (cs : List Char) (r : ReadError) :
    (lexeme strict none c cs).outcome ≠ .error (.read r) := by
  intro met
  obtain ⟨failed, -⟩ := goesOn_of_met met
  cases failed

end Scan

/-- So a run of a text in memory does not end at one. -/
theorem Lexer.Run.ne_read {cs : List Char} {ts : List Token} {e : Option LexicalError}
    (run : Run strict cs ts e) (r : ReadError) : e ≠ some (.read r) := by
  induction run with
  | last _ => exact nofun
  | token _ _ _ ih => exact ih
  | @error _ _ behind _ _ c _ _ failed =>
    intro same
    have never := Scan.lexeme_ne_read strict c behind r
    rw [failed, Option.some.inj same] at never
    exact never rfl

/-! ### Lexemes in front of a failure -/

/-- A lexeme is complete in front of what is left, and not only because its source fails there:
where it does, no lexeme goes on with it. -/
structure IsSettled (strict : Bool) (failure : Option ReadError) (w rest : List Char) (t : Token) :
    Prop where
  own : IsTaken strict w rest t
  closed : rest = [] → failure ≠ none → ¬ GoesOn strict w

variable {failure : Option ReadError} {w rest : List Char} {t : Token}

/-- Such a lexeme is taken. -/
theorem IsSettled.scan (settled : IsSettled strict failure w rest t) :
    ∃ first others, w = first :: others ∧ BeginsLexeme first ∧
      Scan.lexeme strict failure first (others ++ rest) = ⟨w, rest, .ok t⟩ := by
  obtain ⟨more, lexeme, stops, complete⟩ := settled.own
  obtain ⟨first, others, rfl, begins, read⟩ := lexeme.scan stops complete
  refine ⟨first, others, rfl, begins, ?_⟩
  cases rest with
  | cons d rest => exact Scan.lexeme_of_next read
  | nil =>
    cases failure with
    | none => exact read
    | some r =>
      rw [List.append_nil] at read ⊢
      by_cases met : (Scan.lexeme strict (some r) first others).outcome = .error (.read r)
      · obtain ⟨-, goesOn⟩ := Scan.goesOn_of_met met
        exact absurd goesOn (settled.closed rfl (Option.some_ne_none r))
      · have cut : Scan.Cut r [] (Scan.lexeme strict (some r) first others)
            (Scan.lexeme strict none first (others ++ [])) := Scan.lexeme_cut strict first others
        have same := cut.eq_of_ne met
        rw [List.append_nil, read, List.append_nil] at same
        exact same.symm

/-- What is taken is such a lexeme. -/
theorem Scan.isSettled_of_lexeme {c : Char} {cs : List Char}
    (read : lexeme strict failure c cs = ⟨w, rest, .ok t⟩) : IsSettled strict failure w rest t where
  own := isTaken_of_lexeme read
  closed := by
    rintro rfl fails ⟨d, behind, more, t', longer⟩
    obtain ⟨r, rfl⟩ := Option.ne_none_iff_exists'.mp fails
    have taken := lexeme_append strict (some r) c cs
    rw [read, List.append_nil] at taken
    obtain rfl : w = c :: cs := taken
    -- In front of more characters it would be taken as well, and not the longer one.
    have cut : Cut r (d :: behind ++ [' ']) (lexeme strict (some r) c cs)
        (lexeme strict none c (cs ++ (d :: behind ++ [' ']))) := lexeme_cut strict c cs
    rw [read] at cut
    have short := cut.eq_of_ne nofun
    rw [List.cons_append] at longer
    rw [← List.append_assoc, longer.scan_blank] at short
    simp at short

end NetSpec
