import NetSpec.Proofs.Token.Scanning

/-!
# What the reader takes is a lexeme

Whatever the reader of lexemes takes is a lexeme of the grammar, and what is left behind it
does not go on with it. Together with the converse this says that the characters which the
grammar lists as going on with a lexeme are those that extend it.
-/

namespace NetSpec

variable {strict : Bool} {more : Char → Bool} {w rest : List Char} {t : Token}

/-- A lexeme that is complete and ends in front of what is left. -/
def IsTaken (strict : Bool) (w rest : List Char) (t : Token) : Prop :=
  ∃ more, Lexeme strict more w t ∧ Stops more rest ∧ Complete w t rest

namespace Scan

theorem run_ok {fits : Char → Bool} {token : String → Token} {taken cs : List Char}
    (read : run none fits token taken cs = ⟨w, rest, .ok t⟩) :
    ∃ body, w = taken ++ body ∧ cs = body ++ rest ∧ (∀ c ∈ body, fits c = true) ∧
      Stops fits rest ∧ t = token (String.ofList w) := by
  rw [run, settle_none] at read
  cases read
  exact ⟨_, rfl, List.takeWhile_append_dropWhile.symm, fun _ => List.mem_takeWhile_imp,
    Stops.dropWhile fits cs, rfl⟩

theorem sign_cases (cs : List Char) :
    (∃ s others, cs = s :: others ∧ isSign s = true ∧ sign cs = ([s], others)) ∨
      (Stops isSign cs ∧ sign cs = ([], cs)) := by
  cases cs with
  | nil => exact .inr ⟨nofun, rfl⟩
  | cons c cs =>
    cases isSign : isSign c with
    | true => exact .inl ⟨c, cs, rfl, isSign, sign_of_isSign isSign cs⟩
    | false =>
      have stops := Stops.cons isSign cs
      exact .inr ⟨stops, sign_of_stops stops⟩

/-- What is read behind a mark makes an exponent. -/
theorem exponent_ok {number cs : List Char} {m : Char} (isMark : isExponentMark m = true)
    (read : exponent strict none (number ++ [m]) cs = ⟨w, rest, .ok t⟩) :
    strict = false ∧ ∃ more e, Exponent more e ∧ w = number ++ e ∧
      t = .decimal (String.ofList w) ∧ Stops more rest ∧ Complete w t rest := by
  cases strict with
  | true => cases read
  | false =>
    refine ⟨rfl, ?_⟩
    rw [exponent, if_neg Bool.false_ne_true] at read
    rcases sign_cases cs with ⟨s, others, rfl, sign, signed⟩ | ⟨signs, signed⟩ <;>
      rw [signed] at read <;> dsimp only at read
    · split at read
      next => cases read
      next some =>
        obtain ⟨digits, rfl, rfl, all, stops, rfl⟩ := run_ok read
        refine ⟨_, m :: s :: digits, .signed isMark sign all, by simp, rfl, stops, ?_⟩
        exact complete_of_digits _ all (by simpa using some) _
    · split at read
      next => cases read
      next some =>
        obtain ⟨digits, rfl, rfl, all, stops, rfl⟩ := run_ok read
        have complete := complete_of_digits (number ++ [m] ++ []) all (by simpa using some)
        cases digits with
        | nil =>
          refine ⟨_, [m], .mark isMark, by simp, rfl, ?_, complete _⟩
          intro c mem
          exact Bool.or_eq_false_iff.mpr ⟨signs c mem, stops c mem⟩
        | cons d digits =>
          exact ⟨_, m :: d :: digits, .unsigned isMark all, by simp, rfl, stops, complete _⟩

theorem numberEnd_ok {token : String → Token} {number cs : List Char}
    (read : numberEnd strict none token number cs = ⟨w, rest, .ok t⟩) :
    (w = number ∧ cs = rest ∧ t = token (String.ofList w) ∧ Stops isExponentMark rest) ∨
    (strict = false ∧ ∃ more e, Exponent more e ∧ w = number ++ e ∧
      t = .decimal (String.ofList w) ∧ Stops more rest ∧ Complete w t rest) := by
  cases cs with
  | nil =>
    cases read
    exact .inl ⟨rfl, rfl, rfl, nofun⟩
  | cons c cs =>
    rw [numberEnd] at read
    split at read
    next isMark => exact .inr (exponent_ok isMark read)
    next noMark =>
      cases read
      exact .inl ⟨rfl, rfl, rfl, .cons (Bool.eq_false_iff.mpr noMark) cs⟩

section Whole

variable {c : Char} {cs : List Char}

/-- A zero in front is alone before the point. -/
theorem whole_of_zero (zero : c = '0') :
    c :: cs.takeWhile (if c = '0' then fun _ => false else Char.isDigit) = ['0'] := by
  subst zero
  cases cs <;> rfl

theorem isWhole_takeWhile (digit : c.isDigit = true) (cs : List Char) :
    IsWhole (c :: cs.takeWhile (if c = '0' then fun _ => false else Char.isDigit)) where
  nonempty := List.cons_ne_nil _ _
  digits := by
    refine List.forall_mem_cons.mpr ⟨digit, fun d mem => ?_⟩
    have fits := List.mem_takeWhile_imp mem
    split at fits
    · cases fits
    · exact fits
  leading zero := whole_of_zero (Option.some.inj zero)

theorem stops_dropWhile_whole
    (notZero : c :: cs.takeWhile (if c = '0' then fun _ => false else Char.isDigit) ≠ ['0']) :
    Stops Char.isDigit (cs.dropWhile (if c = '0' then fun _ => false else Char.isDigit)) := by
  rw [if_neg fun zero => notZero (whole_of_zero zero)]
  exact .dropWhile _ _

end Whole

/-- What is read behind the whole part of a number makes a numeral or a decimal. -/
theorem number_ok {c : Char} {cs : List Char} (digit : c.isDigit = true)
    (read : number strict none c cs = ⟨w, rest, .ok t⟩) : IsTaken strict w rest t := by
  have isWhole := isWhole_takeWhile digit cs
  have behind := @stops_dropWhile_whole c cs
  rw [number] at read
  dsimp only at read
  generalize c :: cs.takeWhile (if c = '0' then fun _ => false else Char.isDigit) = whole at *
  split at read
  next others point =>
    split at read
    next => cases read
    next some =>
      have all : ∀ d ∈ others.takeWhile Char.isDigit, d.isDigit = true :=
        fun d => List.mem_takeWhile_imp
      have digits := Stops.dropWhile Char.isDigit others
      have split : others.takeWhile Char.isDigit ++ others.dropWhile Char.isDigit ≠ [] := by
        simpa using some
      rcases numberEnd_ok read with
        ⟨rfl, rest, rfl, stops⟩ | ⟨rfl, more, e, own, rfl, rfl, stops, complete⟩
      · rw [rest] at digits split
        refine ⟨_, .decimal isWhole (.point all), fun d mem => ?_, ?_⟩
        · exact Bool.or_eq_false_iff.mpr ⟨digits d mem, stops d mem⟩
        · have complete := complete_of_digits (whole ++ ['.']) all split
          simpa using complete _
      · rw [List.append_assoc] at complete ⊢
        exact ⟨more, .decimal isWhole (.both rfl all own), stops, complete⟩
  next noPoint =>
    rcases numberEnd_ok read with
      ⟨rfl, rest, rfl, stops⟩ | ⟨rfl, more, e, own, rfl, rfl, stops, complete⟩
    · refine ⟨_, .numeral isWhole, fun d mem => ?_, complete_of_kind .numeral rfl (by decide)⟩
      have point : d ≠ '.' := by
        rintro rfl
        obtain ⟨others, same⟩ := List.head?_eq_some_iff.mp (Option.mem_def.mp mem)
        exact noPoint others (rest.trans same)
      have digits : w ≠ ['0'] → d.isDigit = false := fun notZero => behind notZero d (rest ▸ mem)
      by_cases zero : w = ['0'] <;> simp [moreOfWhole, point, stops d mem, zero, digits]
    · exact ⟨more, .decimal isWhole (.exponent rfl own), stops, complete⟩

theorem closingQuote_ok {cs body : List Char} (read : closingQuote cs = some (body, rest)) :
    ∃ inner, body = doubleQuotes inner ++ ['"'] ∧ Stops (· = '"') rest := by
  fun_induction closingQuote cs generalizing body with
  | case1 => cases read
  | case2 cs ih =>
    obtain ⟨⟨others, rest'⟩, found, same⟩ := Option.map_eq_some_iff.mp read
    cases same
    obtain ⟨inner, rfl, stops⟩ := ih found
    exact ⟨'"' :: inner, rfl, stops⟩
  | case3 cs single =>
    cases read
    refine ⟨[], rfl, fun c mem => decide_eq_false fun same => ?_⟩
    obtain ⟨others, begins⟩ := List.head?_eq_some_iff.mp (Option.mem_def.mp mem)
    exact single others (by rw [begins, same])
  | case4 c cs single other ih =>
    obtain ⟨⟨others, rest'⟩, found, same⟩ := Option.map_eq_some_iff.mp read
    cases same
    obtain ⟨inner, rfl, stops⟩ := ih found
    have notQuote : c ≠ '"' := other
    exact ⟨c :: inner, by rw [doubleQuotes_other notQuote, List.cons_append], stops⟩

theorem string_ok {cs : List Char} (read : string none cs = ⟨w, rest, .ok t⟩) :
    IsTaken strict w rest t := by
  rw [string] at read
  split at read
  next body rest' found =>
    rw [settle_none] at read
    obtain ⟨inner, rfl, stops⟩ := closingQuote_ok found
    cases read
    exact ⟨_, .string inner, stops, complete_of_kind .string rfl (by decide)⟩
  next => cases read

theorem quotedSymbol_ok {cs : List Char} (read : quotedSymbol none cs = ⟨w, rest, .ok t⟩) :
    IsTaken strict w rest t := by
  rw [quotedSymbol] at read
  split at read
  next bar rest' found =>
    cases read
    have isBar : bar = '|' := by
      have stops := Stops.dropWhile (fun c => decide (c ≠ '|')) cs bar (by rw [found]; rfl)
      simpa using stops
    have noBar : '|' ∉ cs.takeWhile fun c => decide (c ≠ '|') :=
      fun mem => by simpa using List.mem_takeWhile_imp mem
    rw [isBar]
    exact ⟨_, .quotedSymbol noBar, fun _ _ => rfl, complete_of_kind .symbol rfl (by decide)⟩
  next => cases read

theorem markedNumber_ok {cs : List Char} (read : markedNumber none cs = ⟨w, rest, .ok t⟩) :
    IsTaken strict w rest t := by
  unfold markedNumber at read
  split at read
  next => cases read
  next c cs =>
    split at read
    next same =>
      obtain ⟨digits, rfl, -, all, stops, rfl⟩ := run_ok read
      rw [same]
      exact ⟨_, .hexadecimal all, stops, complete_of_kind .hexadecimal rfl (by decide)⟩
    split at read
    next same =>
      obtain ⟨digits, rfl, -, all, stops, rfl⟩ := run_ok read
      rw [same]
      exact ⟨_, .binary all, stops, complete_of_kind .binary rfl (by decide)⟩
    next => cases read

/-- What is taken is a lexeme, and what follows does not go on with it. -/
theorem lexeme_ok {c : Char} {cs : List Char}
    (read : lexeme strict none c cs = ⟨w, rest, .ok t⟩) : IsTaken strict w rest t := by
  simp only [lexeme] at read
  split at read
  next same =>
    cases same
    cases read
    exact ⟨_, .openParen, fun _ _ => rfl, complete_of_kind .openParen rfl (by decide)⟩
  split at read
  next same =>
    cases same
    cases read
    exact ⟨_, .closeParen, fun _ _ => rfl, complete_of_kind .closeParen rfl (by decide)⟩
  split at read
  next => exact string_ok read
  split at read
  next => exact quotedSymbol_ok read
  split at read
  next => exact markedNumber_ok read
  split at read
  next digit => exact number_ok digit read
  split at read
  next start =>
    obtain ⟨others, rfl, -, all, stops, rfl⟩ := run_ok read
    exact ⟨_, .symbol start all, stops, complete_of_kind .symbol rfl (by decide)⟩
  next => cases read

end Scan

/-- In front of what does not go on with it a lexeme begins no longer one: the reader would
take either. -/
theorem Lexeme.more_iff_extends (lexeme : Lexeme strict more w t) (c : Char) :
    more c = true ↔ Extends w c := by
  refine ⟨lexeme.extends, ?_⟩
  rintro ⟨behind, more', t', longer⟩
  -- A blank behind both lets the reader take the longer lexeme and the shorter one as well.
  by_contra no
  have stops : Stops more (c :: (behind ++ [' '])) := .cons (Bool.eq_false_iff.mpr no) _
  obtain ⟨first, others, rfl, -, read⟩ := lexeme.lax.scan stops fun _ _ => List.cons_ne_nil _ _
  have read' := longer.scan_blank
  have taken := congrArg (·.taken.length) (read.symm.trans (by simpa using read'))
  simp at taken

theorem Lexeme.stops_iff (lexeme : Lexeme strict more w t) :
    Stops more rest ↔ ∀ c ∈ rest.head?, ¬ Extends w c := by
  refine forall₂_congr fun c _ => ?_
  rw [← lexeme.more_iff_extends c, Bool.not_eq_true]

end NetSpec
