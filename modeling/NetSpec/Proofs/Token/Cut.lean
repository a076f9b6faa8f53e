import NetSpec.Proofs.Token.Splitting

/-!
# Sources that fail

A source that fails has characters in front of its failure, and a lexer gives their tokens as long
as it does not have to look behind them. A lexeme that might go on there meets the failure; any
other one is what it would be in front of more characters. So the tokens in front of a failure are
those of every source that begins with the same characters, and if the lexer stops at an error in
between it stops there in all of them.

`Scan.Cut` says this of one lexeme and `TokenStream.Cut` of all tokens of a source.
-/

namespace NetSpec

/-! ### One lexeme -/

/-- A scan of characters in front of a failure, and one with more characters behind them: the first
has met the failure, or both are the same up to what is left. -/
inductive Scan.Cut (e : ReadError) (more : List Char) : Scan → Scan → Prop where
  | read {cut whole : Scan} (met : cut.outcome = .error (.read e)) : Cut e more cut whole
  | same (taken rest : List Char) (outcome : Except LexicalError Token) :
    Cut e more ⟨taken, rest, outcome⟩ ⟨taken, rest ++ more, outcome⟩

namespace Scan

variable {e : ReadError} {failure : Option ReadError} {more : List Char}

theorem Cut.eq_of_ne {cut whole : Scan} (h : Cut e more cut whole)
    (notMet : cut.outcome ≠ .error (.read e)) :
    whole = ⟨cut.taken, cut.rest ++ more, cut.outcome⟩ := by
  cases h with
  | read met => exact absurd met notMet
  | same => rfl

/-- What stops a run stops it in front of more characters as well. -/
theorem run_append_of_stop {fits : Char → Bool} {cs rest : List Char} {d : Char}
    (behind : cs.dropWhile fits = d :: rest) (more : List Char) :
    (cs ++ more).takeWhile fits = cs.takeWhile fits ∧
      (cs ++ more).dropWhile fits = d :: (rest ++ more) := by
  have stops : Stops fits (d :: (rest ++ more)) := by
    have own := Stops.dropWhile fits cs
    rw [behind] at own
    exact .cons (own d rfl) _
  have whole : cs ++ more = cs.takeWhile fits ++ d :: (rest ++ more) := by
    rw [← List.cons_append, ← behind, ← List.append_assoc, List.takeWhile_append_dropWhile]
  have all : ∀ c ∈ cs.takeWhile fits, fits c = true := fun c mem => List.mem_takeWhile_imp mem
  rw [whole]
  exact ⟨takeWhile_append_of_stops all stops, dropWhile_append_of_stops all stops⟩

theorem run_cut (fits : Char → Bool) (token : String → Token) (taken cs : List Char) :
    Cut e more (run (some e) fits token taken cs) (run failure fits token taken (cs ++ more)) := by
  cases behind : cs.dropWhile fits with
  | nil =>
    refine .read ?_
    rw [run, behind]
    rfl
  | cons d rest =>
    obtain ⟨own, others⟩ := run_append_of_stop behind more
    rw [run, run, own, others, behind]
    exact .same _ (d :: rest) (.ok _)

theorem quotedSymbol_cut (cs : List Char) :
    Cut e more (quotedSymbol (some e) cs) (quotedSymbol failure (cs ++ more)) := by
  cases behind : cs.dropWhile (· ≠ '|') with
  | nil =>
    refine .read ?_
    rw [quotedSymbol, behind]
    rfl
  | cons bar rest =>
    obtain ⟨own, others⟩ := run_append_of_stop behind more
    rw [quotedSymbol, quotedSymbol, own, others, behind]
    exact .same _ rest _

/-- A quote that closes a string does so in front of more characters, if it is followed by one of
its own. -/
theorem closingQuote_append_of_next {cs body rest : List Char} {d : Char}
    (found : closingQuote cs = some (body, d :: rest)) (more : List Char) :
    closingQuote (cs ++ more) = some (body, d :: (rest ++ more)) := by
  fun_induction closingQuote cs generalizing body with
  | case1 => cases found
  | case2 cs ih =>
    obtain ⟨⟨inner, behind⟩, found, same⟩ := Option.map_eq_some_iff.mp found
    cases same
    rw [List.cons_append, List.cons_append, closingQuote, ih found]
    rfl
  | case3 cs single =>
    cases found
    rw [List.cons_append, List.cons_append, closingQuote]
    intro others same
    exact single rest (congrArg (· :: rest) (List.cons.inj same).1)
  | case4 c cs _ other ih =>
    obtain ⟨⟨inner, behind⟩, found, same⟩ := Option.map_eq_some_iff.mp found
    cases same
    rw [List.cons_append, closingQuote, ih found]
    · rfl
    · exact fun _ same => absurd same other
    · exact other

theorem string_cut (cs : List Char) :
    Cut e more (string (some e) cs) (string failure (cs ++ more)) := by
  cases found : closingQuote cs with
  | none =>
    refine .read ?_
    rw [string, found]
    rfl
  | some split =>
    obtain ⟨body, _ | ⟨d, rest⟩⟩ := split
    · refine .read ?_
      rw [string, found]
      rfl
    · rw [string, string, closingQuote_append_of_next found more, found]
      exact .same _ (d :: rest) (.ok _)

/-- The sign of an exponent is the same in front of more characters, if there is one behind it. -/
theorem sign_append_of_next {cs rest : List Char} {d : Char} (behind : (sign cs).2 = d :: rest)
    (more : List Char) : sign (cs ++ more) = ((sign cs).1, d :: (rest ++ more)) := by
  cases cs with
  | nil => cases behind
  | cons c cs =>
    by_cases isSign : c = '+' ∨ c = '-'
    · have own (cs : List Char) : sign (c :: cs) = ([c], cs) := if_pos isSign
      rw [own] at behind
      obtain rfl : cs = d :: rest := behind
      rw [List.cons_append, own, own]
      rfl
    · have own (cs : List Char) : sign (c :: cs) = ([], c :: cs) := if_neg isSign
      rw [own] at behind
      obtain ⟨rfl, rfl⟩ := List.cons.inj behind
      rw [List.cons_append, own, own]

theorem exponent_cut (strict : Bool) (number cs : List Char) :
    Cut e more (exponent strict (some e) number cs)
      (exponent strict failure number (cs ++ more)) := by
  cases strict with
  | true => exact .same _ cs _
  | false =>
    rcases signed : sign cs with ⟨signs, _ | ⟨d, rest⟩⟩
    · refine .read ?_
      rw [exponent, if_neg Bool.false_ne_true, signed]
      rfl
    · have signed' := sign_append_of_next (congrArg Prod.snd signed) more
      rw [exponent, exponent, if_neg Bool.false_ne_true, if_neg Bool.false_ne_true, signed',
        signed]
      exact run_cut _ _ _ (d :: rest)

theorem numberEnd_cut (strict : Bool) (token : String → Token) (number cs : List Char) :
    Cut e more (numberEnd strict (some e) token number cs)
      (numberEnd strict failure token number (cs ++ more)) := by
  cases cs with
  | nil => exact .read rfl
  | cons c cs =>
    rw [numberEnd, List.cons_append, numberEnd]
    split
    next => exact exponent_cut strict _ cs
    next => exact .same _ (c :: cs) _

/-- Behind its point a number goes on with places. -/
theorem places_cut (strict : Bool) (whole cs : List Char) :
    Cut e more
      (numberEnd strict (some e) .decimal (whole ++ '.' :: cs.takeWhile Char.isDigit)
        (cs.dropWhile Char.isDigit))
      (numberEnd strict failure .decimal (whole ++ '.' :: (cs ++ more).takeWhile Char.isDigit)
        ((cs ++ more).dropWhile Char.isDigit)) := by
  cases behind : cs.dropWhile Char.isDigit with
  | nil => exact .read rfl
  | cons d rest =>
    obtain ⟨own, others⟩ := run_append_of_stop behind more
    rw [own, others]
    exact numberEnd_cut strict _ _ (d :: rest)

theorem number_cut (strict : Bool) (c : Char) (cs : List Char) :
    Cut e more (number strict (some e) c cs) (number strict failure c (cs ++ more)) := by
  simp only [number]
  generalize (if c = '0' then fun _ => false else Char.isDigit) = fits
  cases behind : cs.dropWhile fits with
  | nil => exact .read rfl
  | cons d rest =>
    obtain ⟨own, others⟩ := run_append_of_stop behind more
    rw [own, others]
    by_cases point : d = '.'
    · subst point
      cases rest with
      | nil => exact .read rfl
      | cons d' rest => exact places_cut strict _ (d' :: rest)
    · split
      next same => exact absurd (List.cons.inj same).1 point
      next =>
        split
        next same => exact absurd (List.cons.inj same).1 point
        next => exact numberEnd_cut strict _ _ (d :: rest)

theorem markedNumber_cut (cs : List Char) :
    Cut e more (markedNumber (some e) cs) (markedNumber failure (cs ++ more)) := by
  cases cs with
  | nil => exact .read rfl
  | cons c cs =>
    rw [markedNumber, List.cons_append, markedNumber]
    split_ifs
    · exact run_cut _ _ _ cs
    · exact run_cut _ _ _ cs
    · exact .same _ cs _

/-- A lexeme in front of a failure is what it is in front of more characters, unless it meets the
failure. -/
theorem lexeme_cut (strict : Bool) (c : Char) (cs : List Char) :
    Cut e more (lexeme strict (some e) c cs) (lexeme strict failure c (cs ++ more)) := by
  simp only [lexeme]
  split_ifs
  · exact .same _ cs _
  · exact .same _ cs _
  · exact string_cut cs
  · exact quotedSymbol_cut cs
  · exact markedNumber_cut cs
  · exact number_cut strict c cs
  · exact run_cut _ _ _ cs
  · exact .same _ cs _

/-- What is taken is a lexeme, whether its source fails behind it or not. -/
theorem isTaken_of_lexeme {strict : Bool} {c : Char} {cs w rest : List Char} {t : Token}
    (read : lexeme strict failure c cs = ⟨w, rest, .ok t⟩) : IsTaken strict w rest t := by
  cases failure with
  | none => exact lexeme_ok read
  | some e =>
    -- In front of nothing but the end it is the same lexeme.
    have cut : Cut e [] (lexeme strict (some e) c cs) (lexeme strict none c (cs ++ [])) :=
      lexeme_cut strict c cs
    rw [read] at cut
    have whole := cut.eq_of_ne nofun
    rw [List.append_nil rest] at whole
    exact lexeme_ok whole

/-- No lexeme is the end of the text. -/
theorem ne_eof_of_lexeme {strict : Bool} {c : Char} {cs w rest : List Char} {t : Token}
    (read : lexeme strict failure c cs = ⟨w, rest, .ok t⟩) : t ≠ .eof := by
  obtain ⟨more, own, -⟩ := isTaken_of_lexeme read
  exact own.ne_eof

/-- A gap that ends at a lexeme ends there in front of more characters as well. -/
theorem gap_append_of_next {comment : Bool} {cs gap rest : List Char} {d : Char}
    (skipped : Scan.gap comment cs = (gap, d :: rest)) (more : List Char) :
    Scan.gap comment (cs ++ more) = (gap, d :: (rest ++ more)) := by
  induction cs generalizing comment gap with
  | nil => cases skipped
  | cons c cs ih =>
    have goesOn {comment : Bool}
        (skipped : (c :: (Scan.gap comment cs).1, (Scan.gap comment cs).2) = (gap, d :: rest)) :
        (c :: (Scan.gap comment (cs ++ more)).1, (Scan.gap comment (cs ++ more)).2) =
          (gap, d :: (rest ++ more)) := by
      rcases read : Scan.gap comment cs with ⟨others, behind⟩
      rw [read] at skipped
      cases skipped
      rw [ih read]
    rw [Scan.gap] at skipped
    rw [List.cons_append, Scan.gap]
    split_ifs at skipped ⊢
    · exact goesOn skipped
    · exact goesOn skipped
    · cases skipped
      rfl

end Scan

/-! ### All tokens of a source -/

/-- The tokens of a source that fails, and those of one with more characters: they go on behind the
failure, or both stop at the same error in front of it. -/
inductive TokenStream.Cut (e : ReadError) : TokenStream → TokenStream → Prop where
  | read {before after : List (Placed Token)} {span : Span}
      {failure : Option (Placed LexicalError)} (inside : .eof ∉ before.map (·.value)) :
      Cut e ⟨before, some ⟨.read e, span⟩⟩ ⟨before ++ after, failure⟩
  | wrong {before : List (Placed Token)} {l : Placed LexicalError}
      (inside : .eof ∉ before.map (·.value)) : Cut e ⟨before, some l⟩ ⟨before, some l⟩

namespace TokenStream.Cut

variable {e : ReadError} {cut whole : TokenStream}

theorem cons (h : Cut e cut whole) {t : Placed Token} (own : t.value ≠ .eof) :
    Cut e (cut.cons t) (whole.cons t) := by
  cases h with
  | read inside => exact .read (List.not_mem_cons_of_ne_of_not_mem own.symm inside)
  | wrong inside => exact .wrong (List.not_mem_cons_of_ne_of_not_mem own.symm inside)

theorem fails (h : Cut e cut whole) : cut.failure ≠ none := by
  cases h with
  | read _ => exact nofun
  | wrong _ => exact nofun

/-- The end of the text is not among the tokens in front of a failure. -/
theorem endsOnce (h : Cut e cut whole) : cut.EndsOnce := by
  cases h with
  | read inside => exact inside
  | wrong inside => exact inside

end TokenStream.Cut

namespace Lexer

/-- Where a source fails before the next lexeme, there are no more tokens. -/
theorem stream_of_read {strict : Bool} {cs gap : List Char} {e : ReadError}
    (skipped : Scan.gap false cs = (gap, [])) (location : Span) :
    (Lexer.mk ⟨cs, some e⟩ strict location false).stream =
      ⟨[], some ⟨.read e, location.extend gap⟩⟩ := by
  rw [stream, next_of_read skipped]

/-- A lexer of a source that fails goes side by side with one that has more characters, wherever
they stand. -/
theorem stream_cut (strict : Bool) (e : ReadError) (cs more : List Char)
    (failure : Option ReadError) (location : Span) :
    TokenStream.Cut e (Lexer.mk ⟨cs, some e⟩ strict location false).stream
      (Lexer.mk ⟨cs ++ more, failure⟩ strict location false).stream := by
  induction size : cs.length using Nat.strongRecOn generalizing cs location with
  | ind n ih =>
    rcases skipped : Scan.gap false cs with ⟨gap, _ | ⟨c, behind⟩⟩
    · rw [stream_of_read skipped]
      exact .read List.not_mem_nil
    · have skipped' := Scan.gap_append_of_next skipped more
      have lexeme : Scan.Cut e more (Scan.lexeme strict (some e) c behind)
          (Scan.lexeme strict failure c (behind ++ more)) := Scan.lexeme_cut strict c behind
      rcases read : Scan.lexeme strict (some e) c behind with ⟨w, rest, outcome⟩
      have shorter : rest.length < n := size ▸ length_rest_lt skipped read
      rw [read] at lexeme
      generalize read' : Scan.lexeme strict failure c (behind ++ more) = scan at lexeme
      cases lexeme with
      | read met =>
        obtain rfl : outcome = .error (.read e) := met
        rw [stream_of_wrong skipped read]
        exact .read List.not_mem_nil
      | same =>
        cases outcome with
        | error l =>
          rw [stream_of_wrong skipped read, stream_of_wrong skipped' read']
          exact .wrong List.not_mem_nil
        | ok t =>
          rw [stream_of_lexeme skipped read, stream_of_lexeme skipped' read']
          exact (ih rest.length shorter rest _ rfl).cons (Scan.ne_eof_of_lexeme read)

/-- The tokens of every source end once. -/
theorem endsOnce_new (source : Source) (strict : Bool) :
    (Lexer.new source strict).stream.EndsOnce := by
  obtain ⟨cs, failure⟩ := source
  cases failure with
  | none => exact endsOnce_stream strict cs _
  | some e => exact (stream_cut strict e cs [] none _).endsOnce

end Lexer

end NetSpec
