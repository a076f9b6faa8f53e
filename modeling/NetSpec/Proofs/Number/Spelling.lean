import NetSpec.Number.Layout
import NetSpec.Proofs.Number.Bits
import NetSpec.Proofs.Number.Nearest

/-!
# Spelled numbers

A spelling gives the digits of a number on both sides of the point and a power of ten. The
digits before the point are there and have no zero in front of others. Natural numbers and
magnitudes are both written in this shape, and a reader finds the parts of a spelling again.
So the text of a finite number reads back as the number.
-/

namespace NetSpec

/-- What follows does not continue a run of characters. -/
def Stops (fits : Char → Bool) (rest : List Char) : Prop := ∀ c ∈ rest.head?, fits c = false

theorem forall_mem_head?_cons {P : Char → Prop} {c : Char} (first : P c) (cs : List Char) :
    ∀ d ∈ (c :: cs).head?, P d := by
  rintro _ ⟨⟩
  exact first

theorem Stops.cons {fits : Char → Bool} {c : Char} (first : fits c = false) (cs : List Char) :
    Stops fits (c :: cs) := forall_mem_head?_cons first cs

/-- A character that passes a test is none that fails it. -/
theorem ne_of_test {test : Char → Bool} {c d : Char} (passes : test c = true)
    (fails : test d = false) : c ≠ d := by
  rintro rfl
  rw [passes] at fails
  cases fails

section Runs

variable {fits : Char → Bool} {cs rest : List Char} (all : ∀ c ∈ cs, fits c = true)
  (stops : Stops fits rest)

include all stops

theorem takeWhile_append_of_stops : (cs ++ rest).takeWhile fits = cs := by
  rw [List.takeWhile_append_of_pos all]
  cases rest with
  | nil => simp
  | cons c rest => simp [stops c rfl]

theorem dropWhile_append_of_stops : (cs ++ rest).dropWhile fits = rest := by
  rw [List.dropWhile_append_of_pos all]
  cases rest with
  | nil => rfl
  | cons c rest => simp [stops c rfl]

end Runs

/-- Digits of a natural number, without a zero in front of others. -/
structure IsWhole (cs : List Char) : Prop where
  nonempty : cs ≠ []
  digits : ∀ c ∈ cs, c.isDigit = true
  leading : cs.head? = some '0' → cs = ['0']

theorem IsWhole.exists_cons {whole : List Char} (isWhole : IsWhole whole) :
    ∃ first others, whole = first :: others ∧ first.isDigit = true := by
  cases whole with
  | nil => exact absurd rfl isWhole.nonempty
  | cons c others => exact ⟨c, others, rfl, isWhole.digits c List.mem_cons_self⟩

theorem isDigit_of_mem_toDigits {n : Nat} {c : Char} (mem : c ∈ Nat.toDigits 10 n) :
    c.isDigit = true := Nat.isDigit_of_mem_toDigits (by decide) (by decide) mem

theorem toLower_of_isDigit {c : Char} (digit : c.isDigit = true) : c.toLower = c := by
  have range := Char.isDigit_iff_toNat.mp digit
  refine dif_neg fun upper => ?_
  have first : 'A'.toNat ≤ c.toNat := UInt32.le_iff_toNat_le.mp upper.1
  exact absurd (Nat.le_trans first range.2) (by decide)

/-- Only zero has a zero in front. -/
theorem eq_zero_of_head?_toDigits {n : Nat} (zero : (Nat.toDigits 10 n).head? = some '0') :
    n = 0 := by
  induction n using Nat.strongRecOn with
  | ind n ih =>
    by_cases small : n < 10
    · rw [Nat.toDigits_of_lt_base small] at zero
      have digit : n.digitChar = '0' := Option.some.inj zero
      have value := Nat.toNat_digitChar_sub_48_of_lt_ten small
      rw [digit] at value
      exact value.symm
    · rw [Nat.toDigits_of_base_le (by decide) (by omega), List.head?_append,
        List.head?_eq_some_head Nat.toDigits_ne_nil, Option.some_or] at zero
      rw [← List.head?_eq_some_head] at zero
      have none := ih (n / 10) (by omega) zero
      omega

theorem isWhole_toDigits (n : Nat) : IsWhole (Nat.toDigits 10 n) where
  nonempty := Nat.toDigits_ne_nil
  digits _ := isDigit_of_mem_toDigits
  leading zero := by rw [eq_zero_of_head?_toDigits zero, Nat.toDigits_zero]

namespace Decimal

theorem digits?_eq_some {cs : List Char} (nonempty : cs ≠ [])
    (digits : ∀ c ∈ cs, c.isDigit = true) : digits? cs = some (digitsValue cs) := by
  have all : cs.all Char.isDigit = true := List.all_eq_true.mpr digits
  simp [digits?, nonempty, all]

theorem digits?_toDigits (n : Nat) : digits? (Nat.toDigits 10 n) = some n := by
  rw [digits?_eq_some Nat.toDigits_ne_nil fun _ => isDigit_of_mem_toDigits]
  exact congrArg some Nat.ofDigitChars_ten_toDigits

end Decimal

/-- The parts of a written number. -/
structure Spelling where
  whole : List Char
  places : List Char
  exponent : Option Int
  isWhole : IsWhole whole
  isPlaces : ∀ c ∈ places, c.isDigit = true

namespace Spelling

/-- The digits behind the point, which is written only before digits. -/
def point : List Char → List Char
  | [] => []
  | places => '.' :: places

/-- The exponent behind its mark. -/
def mark : Option Int → List Char
  | none => []
  | some e => 'e' :: e.repr.toList

/-- The parts in a row. -/
def chars (s : Spelling) : List Char := s.whole ++ (point s.places ++ mark s.exponent)

/-- What the parts stand for. -/
def decimal (s : Spelling) : Decimal :=
  ⟨Decimal.digitsValue (s.whole ++ s.places), s.exponent.getD 0 - s.places.length⟩

theorem stops_mark (exponent : Option Int) : Stops Char.isDigit (mark exponent) := by
  cases exponent with
  | none => exact nofun
  | some e => exact .cons rfl _

theorem stops_point (places : List Char) (exponent : Option Int) :
    Stops Char.isDigit (point places ++ mark exponent) := by
  cases places with
  | nil => exact stops_mark exponent
  | cons c places => exact .cons rfl _

/-- An exponent is a sign, or none, and digits. -/
theorem repr_eq (e : Int) : ∃ sign digits, e.repr.toList = sign ++ digits ∧ digits ≠ [] ∧
    (∀ c ∈ digits, c.isDigit = true) ∧
      (sign = [] ∧ e = Decimal.digitsValue digits ∨
        sign = ['-'] ∧ e = -(Decimal.digitsValue digits : Int)) := by
  cases e with
  | ofNat n =>
    refine ⟨[], Nat.toDigits 10 n, Nat.toList_repr, Nat.toDigits_ne_nil,
      fun _ => isDigit_of_mem_toDigits, .inl ⟨rfl, ?_⟩⟩
    exact congrArg Int.ofNat Nat.ofDigitChars_ten_toDigits.symm
  | negSucc n =>
    refine ⟨['-'], Nat.toDigits 10 (n + 1), ?_, Nat.toDigits_ne_nil,
      fun _ => isDigit_of_mem_toDigits, .inr ⟨rfl, ?_⟩⟩
    · simp [Int.repr]
    · rw [Decimal.digitsValue, Nat.ofDigitChars_ten_toDigits]
      rfl

theorem exponent?_digits {digits : List Char} (nonempty : digits ≠ [])
    (all : ∀ c ∈ digits, c.isDigit = true) :
    Decimal.exponent? ('e' :: digits) = some (Decimal.digitsValue digits : Int) := by
  unfold Decimal.exponent?
  dsimp only
  rw [if_pos (.inl rfl)]
  split
  next => exact absurd rfl (ne_of_test (all '+' List.mem_cons_self) rfl)
  next => exact absurd rfl (ne_of_test (all '-' List.mem_cons_self) rfl)
  next =>
    rw [Decimal.digits?_eq_some nonempty all]
    rfl

theorem exponent?_mark (exponent : Option Int) :
    Decimal.exponent? (mark exponent) = some (exponent.getD 0) := by
  cases exponent with
  | none => rfl
  | some e =>
    obtain ⟨sign, digits, written, nonempty, all, ⟨rfl, value⟩ | ⟨rfl, value⟩⟩ := repr_eq e
    · rw [mark, written, List.nil_append, exponent?_digits nonempty all, value]
      rfl
    · rw [mark, written]
      show (Decimal.digits? digits).map (fun n => -(n : Int)) = some e
      rw [Decimal.digits?_eq_some nonempty all, value]
      rfl

/-- The parts of a spelling are found again. -/
theorem ofChars?_chars (s : Spelling) : Decimal.ofChars? s.chars = some s.decimal := by
  have stops := stops_point s.places s.exponent
  have places : Decimal.fraction (point s.places ++ mark s.exponent) =
      (s.places, mark s.exponent) := by
    cases written : s.places with
    | nil =>
      cases exponent : s.exponent with
      | none => rfl
      | some e => rfl
    | cons c places =>
      have all : ∀ d ∈ c :: places, d.isDigit = true := written ▸ s.isPlaces
      have behind := stops_mark s.exponent
      show (List.takeWhile _ (c :: places ++ _), List.dropWhile _ (c :: places ++ _)) = _
      rw [takeWhile_append_of_stops all behind, dropWhile_append_of_stops all behind]
  rw [Decimal.ofChars?, chars]
  rw [takeWhile_append_of_stops s.isWhole.digits stops]
  rw [dropWhile_append_of_stops s.isWhole.digits stops, places]
  simp [s.isWhole.nonempty, exponent?_mark, decimal]

/-- A natural number. -/
def ofNat (n : Nat) : Spelling where
  whole := Nat.toDigits 10 n
  places := []
  exponent := none
  isWhole := isWhole_toDigits n
  isPlaces _ mem := nomatch mem

/-- Digits, zeros up to the point, and a zero behind it. -/
def filled (d : Decimal) (zero : d.digits = 0 → d.exponent = 0) : Spelling where
  whole := Nat.toDigits 10 d.digits ++ List.replicate d.exponent.toNat '0'
  places := ['0']
  exponent := none
  isWhole :=
    { nonempty := by simp [Nat.toDigits_ne_nil]
      digits := by
        intro c mem
        rcases List.mem_append.mp mem with mem | mem
        · exact isDigit_of_mem_toDigits mem
        · rw [List.eq_of_mem_replicate mem]
          rfl
      leading := by
        intro leading
        rw [List.head?_append, List.head?_eq_some_head Nat.toDigits_ne_nil, Option.some_or,
          ← List.head?_eq_some_head] at leading
        have none := eq_zero_of_head?_toDigits leading
        rw [none, zero none]
        rfl }
  isPlaces c mem := by
    rw [List.mem_singleton.mp mem]
    rfl

theorem chars_filled {d : Decimal} (zero : d.digits = 0 → d.exponent = 0)
    (nonneg : 0 ≤ d.exponent) : Layout.literal.positional d = (filled d zero).chars := by
  rw [Layout.positional, if_pos nonneg]
  rfl

theorem code_filled {d : Decimal} (zero : d.digits = 0 → d.exponent = 0)
    (nonneg : 0 ≤ d.exponent) : (filled d zero).decimal.code = d.code := by
  have value : (filled d zero).decimal = ⟨10 ^ (d.exponent.toNat + 1) * d.digits, -1⟩ := by
    have zeros : List.replicate d.exponent.toNat '0' ++ ['0'] =
        List.replicate (d.exponent.toNat + 1) '0' := List.replicate_succ'.symm
    rw [decimal, filled, List.append_assoc, zeros, Decimal.digitsValue, Nat.ofDigitChars_append,
      Nat.ofDigitChars_replicate_zero, Nat.ofDigitChars_ten_toDigits]
    rfl
  have exponent : -1 + ((d.exponent.toNat + 1 : Nat) : Int) = d.exponent := by omega
  rw [value, Decimal.code_append_zeros, exponent]

/-- Digits behind as many zeros as make them more than the places behind the point. -/
def padded (d : Decimal) : List Char :=
  List.replicate ((-d.exponent).toNat + 1 - (Nat.toDigits 10 d.digits).length) '0' ++
    Nat.toDigits 10 d.digits

theorem places_lt_length_padded (d : Decimal) : (-d.exponent).toNat < (padded d).length := by
  rw [padded, List.length_append, List.length_replicate]
  omega

theorem isDigit_of_mem_padded {d : Decimal} {c : Char} (mem : c ∈ padded d) :
    c.isDigit = true := by
  rcases List.mem_append.mp mem with mem | mem
  · rw [List.eq_of_mem_replicate mem]
    rfl
  · exact isDigit_of_mem_toDigits mem

/-- A zero in front stands alone before the point. -/
theorem length_padded {d : Decimal} (leading : (padded d).head? = some '0') :
    (padded d).length = (-d.exponent).toNat + 1 := by
  have length : (padded d).length =
      ((-d.exponent).toNat + 1 - (Nat.toDigits 10 d.digits).length) +
        (Nat.toDigits 10 d.digits).length := by simp [padded]
  by_cases short : (Nat.toDigits 10 d.digits).length ≤ (-d.exponent).toNat + 1
  · omega
  · have filler : (-d.exponent).toNat + 1 - (Nat.toDigits 10 d.digits).length = 0 := by omega
    rw [padded, filler] at leading
    have none := eq_zero_of_head?_toDigits leading
    rw [none, Nat.toDigits_zero] at short
    exact absurd (Nat.le_add_left 1 _) short

/-- Digits with the point among them, or behind a zero in front of them. -/
def divided (d : Decimal) : Spelling where
  whole := (padded d).take ((padded d).length - (-d.exponent).toNat)
  places := (padded d).drop ((padded d).length - (-d.exponent).toNat)
  exponent := none
  isWhole :=
    { nonempty := by
        have more := places_lt_length_padded d
        intro none
        have length := congrArg List.length none
        rw [List.length_take, List.length_nil] at length
        omega
      digits := fun c mem => isDigit_of_mem_padded (List.mem_of_mem_take mem)
      leading := by
        intro leading
        have more := places_lt_length_padded d
        rw [List.head?_take, if_neg (by omega)] at leading
        have one : (padded d).length - (-d.exponent).toNat = 1 := by
          rw [length_padded leading]
          omega
        obtain ⟨rest, split⟩ := List.head?_eq_some_iff.mp leading
        rw [one, split]
        rfl }
  isPlaces c mem := isDigit_of_mem_padded (List.mem_of_mem_drop mem)

theorem length_places_divided (d : Decimal) : (divided d).places.length = (-d.exponent).toNat := by
  have more := places_lt_length_padded d
  rw [divided, List.length_drop]
  omega

theorem chars_divided {d : Decimal} (negative : d.exponent < 0) :
    Layout.literal.positional d = (divided d).chars := by
  have places := length_places_divided d
  rw [Layout.positional, if_neg (by omega), chars]
  cases written : (divided d).places with
  | nil =>
    rw [written, List.length_nil] at places
    omega
  | cons c cs =>
    show _ = (divided d).whole ++ ('.' :: (c :: cs) ++ [])
    rw [← written, List.append_nil]
    rfl

theorem code_divided {d : Decimal} (negative : d.exponent < 0) :
    (divided d).decimal.code = d.code := by
  have digits : Decimal.digitsValue ((divided d).whole ++ (divided d).places) = d.digits := by
    rw [divided, List.take_append_drop, padded, Decimal.digitsValue, Nat.ofDigitChars_append,
      Nat.ofDigitChars_replicate_zero, Nat.mul_zero, Nat.ofDigitChars_ten_toDigits]
  have exponent : 0 - ((-d.exponent).toNat : Int) = d.exponent := by omega
  have value : (divided d).decimal = d := by
    rw [decimal, digits, length_places_divided]
    show (⟨d.digits, 0 - _⟩ : Decimal) = d
    rw [exponent]
  rw [value]

/-- One digit before the point, the others behind it, and an exponent. -/
def scientific (d : Decimal) : Spelling where
  whole := (Nat.toDigits 10 d.digits).take 1
  places := (Nat.toDigits 10 d.digits).drop 1
  exponent := some (d.exponent + ((Nat.toDigits 10 d.digits).length - 1 : Nat))
  isWhole :=
    { nonempty := by simp [Nat.toDigits_ne_nil]
      digits := fun c mem => isDigit_of_mem_toDigits (List.mem_of_mem_take mem)
      leading := by
        intro leading
        rw [List.head?_take, if_neg (by decide)] at leading
        obtain ⟨rest, split⟩ := List.head?_eq_some_iff.mp leading
        rw [split]
        rfl }
  isPlaces c mem := isDigit_of_mem_toDigits (List.mem_of_mem_drop mem)

theorem chars_scientific (d : Decimal) : Layout.scientific d = (scientific d).chars := by
  rw [Layout.scientific, chars]
  cases places : (Nat.toDigits 10 d.digits).drop 1 with
  | nil => simp [scientific, places, point, mark]
  | cons c cs => simp [scientific, places, point, mark]

theorem code_scientific (d : Decimal) : (scientific d).decimal.code = d.code := by
  have value : (scientific d).decimal = d := by
    rw [decimal, scientific, List.take_append_drop, List.length_drop, Decimal.digitsValue,
      Nat.ofDigitChars_ten_toDigits]
    simp
  rw [value]

/-- A finite magnitude is written as a spelling that reads back as it. -/
theorem exists_magnitude {c : Nat} (finite : c < Binary64.infinityCode) :
    ∃ s : Spelling, Layout.literal.magnitude c = s.chars ∧ s.decimal.code = c ∧
      (s.places ≠ [] ∨ s.exponent ≠ none) ∧
      (Layout.literal.isPositional c = true → s.exponent = none) := by
  have zero : (Decimal.shortest c).digits = 0 → (Decimal.shortest c).exponent = 0 :=
    Decimal.exponent_trim
  have reads := Decimal.code_shortest finite
  rw [Layout.magnitude, if_neg (Nat.ne_of_lt finite)]
  split
  next =>
    by_cases nonneg : 0 ≤ (Decimal.shortest c).exponent
    · exact ⟨filled _ zero, chars_filled zero nonneg, (code_filled zero nonneg).trans reads,
        .inl (List.cons_ne_nil _ _), fun _ => rfl⟩
    · have negative : (Decimal.shortest c).exponent < 0 := by omega
      have places : (divided (Decimal.shortest c)).places ≠ [] := by
        have length := length_places_divided (Decimal.shortest c)
        refine List.ne_nil_of_length_pos ?_
        omega
      exact ⟨divided _, chars_divided negative, (code_divided negative).trans reads,
        .inl places, fun _ => rfl⟩
  next otherwise =>
    exact ⟨scientific _, chars_scientific _, (code_scientific _).trans reads,
      .inr (Option.some_ne_none _), fun positional => absurd positional otherwise⟩

theorem exists_whole_eq (s : Spelling) : ∃ c cs, s.whole = c :: cs ∧ c.isDigit = true :=
  s.isWhole.exists_cons

/-- A spelling is no word. -/
theorem magnitude?_chars (s : Spelling) (negative : Bool) :
    Binary64.magnitude? negative s.chars = some (Binary64.toFloat negative s.decimal.code) := by
  obtain ⟨c, cs, written, digit⟩ := s.exists_whole_eq
  have lower : c.toLower = c := toLower_of_isDigit digit
  have notWord (d : Char) (ds : List Char) (letter : d.isDigit = false) :
      s.chars.map Char.toLower ≠ d :: ds := by
    intro same
    rw [chars, written, List.cons_append, List.map_cons, lower] at same
    exact ne_of_test digit letter (List.cons.inj same).1
  rw [Binary64.magnitude?]
  rw [if_neg (not_or.mpr ⟨notWord _ _ rfl, notWord _ _ rfl⟩), if_neg (notWord _ _ rfl)]
  rw [ofChars?_chars]
  rfl

end Spelling

namespace Binary64

theorem ofChars?_spelling (s : Spelling) :
    ofChars? s.chars = some (toFloat false s.decimal.code) := by
  obtain ⟨c, cs, written, digit⟩ := s.exists_whole_eq
  rw [← s.magnitude?_chars, Spelling.chars, written, List.cons_append]
  simp only [ofChars?]
  split
  next same => exact absurd (List.cons.inj same).1 (ne_of_test digit rfl)
  next same => exact absurd (List.cons.inj same).1 (ne_of_test digit rfl)
  next => rfl

/-- The text of a finite number reads back as the number. -/
theorem ofChars?_literal {x : Float} (finite : isFinite x = true) :
    ofChars? (Layout.literal.chars x) = some x := by
  have bound : code x < infinityCode := of_decide_eq_true finite
  obtain ⟨s, written, reads, -, -⟩ := Spelling.exists_magnitude bound
  have same := toFloat_code x
  rw [Layout.chars, if_neg (by omega), written]
  cases sign : isNegative x with
  | false =>
    rw [sign] at same
    rw [if_neg (by decide), List.nil_append, ofChars?_spelling, reads, same]
  | true =>
    rw [sign] at same
    rw [if_pos rfl]
    show magnitude? true s.chars = _
    rw [s.magnitude?_chars, reads, same]

end Binary64

end NetSpec
