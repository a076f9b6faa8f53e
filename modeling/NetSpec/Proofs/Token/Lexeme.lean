import NetSpec.Proofs.Token.Scanning

/-!
# Written names and literals are lexemes

A lexeme that does not break off gives one token when something delimits it. So do names
without bars, spelled numbers and quoted texts. A number is a lexeme of the strict dialect as
well if it has no exponent, and a number behind a minus has the characters of a symbol.
-/

namespace NetSpec

/-- A name that can stand without bars. -/
structure IsPlain (cs : List Char) : Prop where
  nonempty : cs ≠ []
  chars : ∀ c ∈ cs, isSymbolChar c = true
  leading : ∀ c ∈ cs.head?, c.isDigit = false

variable {strict : Bool} {more : Char → Bool} {w rest : List Char} {t : Token}

/-- A lexeme that does not break off is one token in front of whatever delimits it. -/
theorem Lexeme.isLexeme (lexeme : Lexeme strict more w t)
    (complete : ∀ rest, Complete w t rest) : IsLexeme strict w t := by
  have read (rest : List Char) (delimited : Delimited rest) :=
    lexeme.scan (fun c mem => lexeme.more_of_delimits (delimited c mem)) (complete rest)
  obtain ⟨first, others, rfl, begins, -⟩ := read [] fun _ mem => nomatch mem
  refine ⟨first, others, rfl, begins.1, begins.2, fun rest delimited => ?_⟩
  obtain ⟨first', others', same, -, taken⟩ := read rest delimited
  obtain ⟨rfl, rfl⟩ := List.cons.inj same
  exact taken

/-- A plain name is a symbol. -/
theorem isLexeme_symbol {cs : List Char} (plain : IsPlain cs) (strict : Bool) :
    IsLexeme strict cs (.symbol (String.ofList cs)) := by
  cases cs with
  | nil => exact absurd rfl plain.nonempty
  | cons c cs =>
    have start : isSymbolStart c = true := by
      have fits := plain.chars c List.mem_cons_self
      rwa [isSymbolChar, plain.leading c rfl, Bool.or_false] at fits
    have all : ∀ d ∈ cs, isSymbolChar d = true :=
      fun d mem => plain.chars d (List.mem_cons_of_mem c mem)
    exact (Lexeme.symbol start all).isLexeme fun _ => complete_of_kind .symbol rfl (by decide)

/-- A quoted text is one token. -/
theorem isLexeme_string (strict : Bool) (cs : List Char) :
    IsLexeme strict ('"' :: doubleQuotes cs ++ ['"'])
      (.string (String.ofList ('"' :: doubleQuotes cs ++ ['"']))) :=
  (Lexeme.string cs).isLexeme fun _ => complete_of_kind .string rfl (by decide)

/-- The token of a spelled number. -/
def Spelling.token (s : Spelling) : Token :=
  if s.places = [] ∧ s.exponent = none then .numeral (String.ofList s.chars)
  else .decimal (String.ofList s.chars)

namespace Spelling

/-- The exponent of a spelling is one of the grammar. -/
theorem exists_exponent (e : Int) : ∃ more, Exponent more (mark (some e)) := by
  obtain ⟨sign, digits, written, nonempty, all, cases⟩ := repr_eq e
  rw [mark, written]
  rcases cases with ⟨rfl, -⟩ | ⟨rfl, -⟩
  · obtain ⟨d, others, rfl⟩ := List.exists_cons_of_ne_nil nonempty
    exact ⟨_, .unsigned rfl all⟩
  · exact ⟨_, .signed rfl rfl all⟩

/-- A spelled number ends in digits. -/
theorem chars_eq_append (s : Spelling) : ∃ before digits, s.chars = before ++ digits ∧
    digits ≠ [] ∧ ∀ c ∈ digits, c.isDigit = true := by
  cases exponent : s.exponent with
  | some e =>
    obtain ⟨sign, digits, written, nonempty, all, -⟩ := repr_eq e
    refine ⟨s.whole ++ point s.places ++ 'e' :: sign, digits, ?_, nonempty, all⟩
    rw [chars, exponent, mark, written]
    simp
  | none =>
    cases places : s.places with
    | nil =>
      refine ⟨[], s.whole, ?_, s.isWhole.nonempty, s.isWhole.digits⟩
      rw [chars, exponent, places, point, mark, List.append_nil, List.append_nil, List.nil_append]
    | cons c cs =>
      refine ⟨s.whole ++ ['.'], c :: cs, ?_, List.cons_ne_nil _ _, places ▸ s.isPlaces⟩
      rw [chars, exponent, places, mark, List.append_nil, List.append_assoc]
      rfl

/-- A spelled number is a lexeme of the dialects that have its exponent. -/
theorem exists_lexeme (s : Spelling) (dialect : strict = true → s.exponent = none) :
    ∃ more, Lexeme strict more s.chars s.token := by
  cases exponent : s.exponent with
  | none =>
    cases places : s.places with
    | nil =>
      have whole : s.chars = s.whole := by
        rw [chars, exponent, places, point, mark, List.append_nil, List.append_nil]
      rw [token, if_pos ⟨places, exponent⟩, whole]
      exact ⟨_, .numeral s.isWhole⟩
    | cons c cs =>
      have more : ¬ (s.places = [] ∧ s.exponent = none) := by
        rw [places]
        exact fun both => List.cons_ne_nil c cs both.1
      have tail : DecimalTail strict _ ('.' :: c :: cs) := .point (places ▸ s.isPlaces)
      rw [token, if_neg more, chars, exponent, places, mark, List.append_nil]
      exact ⟨_, .decimal s.isWhole tail⟩
  | some e =>
    have lax : strict = false := by
      cases strict with
      | false => rfl
      | true => exact absurd (exponent.symm.trans (dialect rfl)) (Option.some_ne_none e)
    have more : ¬ (s.places = [] ∧ s.exponent = none) := by
      rw [exponent]
      exact fun both => Option.some_ne_none e both.2
    obtain ⟨fits, own⟩ := exists_exponent e
    rw [token, if_neg more, chars, exponent]
    cases places : s.places with
    | nil => exact ⟨_, .decimal s.isWhole (.exponent lax own)⟩
    | cons c cs => exact ⟨_, .decimal s.isWhole (.both lax (places ▸ s.isPlaces) own)⟩

/-- A spelled number is one token. -/
theorem isLexeme (s : Spelling) (dialect : strict = true → s.exponent = none) :
    IsLexeme strict s.chars s.token := by
  obtain ⟨more, lexeme⟩ := s.exists_lexeme dialect
  refine lexeme.isLexeme fun rest => ?_
  obtain ⟨before, digits, written, nonempty, all⟩ := s.chars_eq_append
  rw [written]
  exact complete_of_digits before all (List.append_ne_nil_of_left_ne_nil nonempty rest) _

end Spelling

/-- A spelled number has only characters that a symbol may go on with. -/
theorem Spelling.isSymbolChar_of_mem (s : Spelling) : ∀ c ∈ s.chars, isSymbolChar c = true := by
  intro c mem
  rw [Spelling.chars, List.mem_append, List.mem_append] at mem
  rcases mem with mem | mem | mem
  · exact isSymbolChar_of_isDigit (s.isWhole.digits c mem)
  · have digits := s.isPlaces
    cases places : s.places with
    | nil =>
      rw [places] at mem
      cases mem
    | cons d ds =>
      rw [places] at mem digits
      rcases List.mem_cons.mp mem with rfl | mem
      · rfl
      · exact isSymbolChar_of_isDigit (digits c mem)
  · cases exponent : s.exponent with
    | none =>
      rw [exponent] at mem
      cases mem
    | some e =>
      obtain ⟨sign, digits, written, -, all, cases⟩ := Spelling.repr_eq e
      rw [exponent, Spelling.mark, written, List.mem_cons, List.mem_append] at mem
      rcases mem with rfl | mem | mem
      · rfl
      · rcases cases with ⟨rfl, -⟩ | ⟨rfl, -⟩
        · cases mem
        · rw [List.mem_singleton.mp mem]
          rfl
      · exact isSymbolChar_of_isDigit (all c mem)

/-- So behind a minus it is a plain name. -/
theorem Spelling.isPlain_minus (s : Spelling) : IsPlain ('-' :: s.chars) where
  nonempty := List.cons_ne_nil _ _
  chars c mem := by
    rcases List.mem_cons.mp mem with rfl | mem
    · rfl
    · exact s.isSymbolChar_of_mem c mem
  leading c mem := by
    cases mem
    rfl

end NetSpec
