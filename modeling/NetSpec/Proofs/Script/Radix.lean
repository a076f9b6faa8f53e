import NetSpec.Proofs.Number.Spelling
import NetSpec.Script.Literal
import NetSpec.Token.Scan

/-!
# Numbers in a base

A natural number has one shortest spelling in a base, and others with more zeros in front or with
letters of the other case. Whatever way it is spelled, the readers for the three bases find its
value: each appends digits one by one, and they differ in the base and in what a digit is worth.
-/

namespace NetSpec

/-- Digits of a number in a base, in any case and behind any number of zeros. -/
def Spells (base : Nat) (cs : List Char) (n : Nat) : Prop :=
  ∃ zeros, cs.map Char.toLower = List.replicate zeros '0' ++ Nat.toDigits base n

/-- Digits one behind the other, each less than the base, with the number that they make. -/
inductive Positional (base : Nat) : List Char → Nat → Prop where
  | nil : Positional base [] 0
  | concat {cs : List Char} {n d : Nat} {c : Char} (front : Positional base cs n)
      (small : d < base) (digit : c.toLower = d.digitChar) :
      Positional base (cs ++ [c]) (base * n + d)

namespace Spells

variable {base n : Nat} {cs : List Char}

theorem ne_nil (spells : Spells base cs n) : cs ≠ [] := by
  rintro rfl
  obtain ⟨zeros, same⟩ := spells
  exact Nat.toDigits_ne_nil (List.append_eq_nil_iff.mp same.symm).2

/-- A spelling is one of digits: those of the number, and zeros in front of them. -/
theorem positional (spells : Spells base cs n) (proper : 1 < base) : Positional base cs n := by
  obtain ⟨zeros, same⟩ := spells
  have front : ∀ zeros cs, cs.map Char.toLower = List.replicate zeros '0' →
      Positional base cs 0 := by
    intro zeros
    induction zeros with
    | zero =>
      intro cs same
      rw [List.map_eq_nil_iff.mp same]
      exact .nil
    | succ zeros ih =>
      intro cs same
      rw [List.replicate_succ', List.map_eq_append_iff] at same
      obtain ⟨others, last, rfl, zero, same⟩ := same
      obtain ⟨c, rfl, digit⟩ := List.map_eq_singleton_iff.mp same
      exact .concat (d := 0) (ih others zero) (Nat.zero_lt_of_lt proper) digit
  induction n using Nat.strongRecOn generalizing cs with
  | ind n ih =>
    by_cases small : n < base
    · rw [Nat.toDigits_of_lt_base small, List.map_eq_append_iff] at same
      obtain ⟨others, last, rfl, zero, same⟩ := same
      obtain ⟨c, rfl, digit⟩ := List.map_eq_singleton_iff.mp same
      have own := Positional.concat (front zeros others zero) small digit
      rwa [Nat.mul_zero, Nat.zero_add] at own
    · have large : base ≤ n := Nat.le_of_not_lt small
      rw [Nat.toDigits_of_base_le proper large, ← List.append_assoc, List.map_eq_append_iff] at same
      obtain ⟨others, last, rfl, before, same⟩ := same
      obtain ⟨c, rfl, digit⟩ := List.map_eq_singleton_iff.mp same
      have less : n / base < n :=
        Nat.div_lt_self (Nat.lt_of_lt_of_le (Nat.zero_lt_of_lt proper) large) proper
      have part : n % base < base := Nat.mod_lt n (Nat.zero_lt_of_lt proper)
      have own := Positional.concat (ih (n / base) less before) part digit
      rwa [Nat.div_add_mod] at own

end Spells

/-- A reader for the digits of a base: which characters fit and what they are worth. -/
structure ReadsBase (base : Nat) (fits : Char → Bool) (worth : Char → Nat)
    (value : List Char → Nat) : Prop where
  nil : value [] = 0
  concat : ∀ cs c, value (cs ++ [c]) = base * value cs + worth c
  digit : ∀ d < base, ∀ c : Char, c.toLower = d.digitChar → fits c = true ∧ worth c = d

namespace ReadsBase

variable {base : Nat} {fits : Char → Bool} {worth : Char → Nat} {value : List Char → Nat}

/-- It finds the number that is spelled. -/
theorem value_eq (reads : ReadsBase base fits worth value) {cs : List Char} {n : Nat}
    (own : Positional base cs n) : value cs = n := by
  induction own with
  | nil => exact reads.nil
  | concat _ small digit ih => rw [reads.concat, ih, (reads.digit _ small _ digit).2]

/-- It takes all of the digits. -/
theorem all_fit (reads : ReadsBase base fits worth value) {cs : List Char} {n : Nat}
    (own : Positional base cs n) : ∀ c ∈ cs, fits c = true := by
  induction own with
  | nil => exact List.forall_mem_nil _
  | concat _ small digit ih =>
    exact List.forall_mem_append.mpr
      ⟨ih, List.forall_mem_singleton.mpr (reads.digit _ small _ digit).1⟩

end ReadsBase

theorem toNat_digitChar {d : Nat} (small : d < 16) :
    d.digitChar.toNat = if d < 10 then 48 + d else 87 + d := by
  revert d
  decide

theorem char_le_iff {a b : Char} : a ≤ b ↔ a.toNat ≤ b.toNat := UInt32.le_iff_toNat_le

/-- A digit is one of ten, or one of six letters in either case. -/
theorem toNat_of_toLower {c : Char} {d : Nat} (small : d < 16) (digit : c.toLower = d.digitChar) :
    d < 10 ∧ c.toNat = 48 + d ∨ 10 ≤ d ∧ (c.toNat = 87 + d ∨ c.toNat = 55 + d) := by
  have value := toNat_digitChar small
  rw [← digit] at value
  by_cases upper : 'A' ≤ c ∧ c ≤ 'Z'
  · have lower : c.toLower.toNat = c.toNat + 32 := by
      have last : c.toNat ≤ 90 := char_le_iff.mp upper.2
      have shifted : c.toLower.toNat = (c.val + 32).toNat := congrArg Char.toNat (dif_pos upper)
      have own : c.val.toNat = c.toNat := rfl
      have offset : (32 : UInt32).toNat = 32 := rfl
      rw [shifted, UInt32.toNat_add, own, offset]
      omega
    have first : 65 ≤ c.toNat := char_le_iff.mp upper.1
    split at value <;> omega
  · have lower : c.toLower = c := dif_neg upper
    rw [lower] at value
    split at value <;> omega

/-- Below ten all of them are digits in base ten. -/
theorem isDigit_of_toLower {c : Char} {d : Nat} (small : d < 10) (digit : c.toLower = d.digitChar) :
    c.isDigit = true ∧ c.toNat - '0'.toNat = d := by
  have zero : '0'.toNat = 48 := rfl
  have nine : '9'.toNat = 57 := rfl
  rcases toNat_of_toLower (by omega) digit with ⟨-, value⟩ | ⟨large, -⟩
  · exact ⟨Char.isDigit_iff_toNat.mpr (by omega), by omega⟩
  · omega

theorem isDigit_of_letter {c : Char} (beyond : 57 < c.toNat) : c.isDigit = false := by
  have nine : '9'.toNat = 57 := rfl
  rw [← Bool.not_eq_true, Char.isDigit_iff_toNat]
  omega

theorem readsBase_sixteen : ReadsBase 16 isHexDigit hexDigitValue hexValue where
  nil := rfl
  concat cs c := List.foldl_concat ..
  digit d small c digit := by
    rcases toNat_of_toLower small digit with ⟨few, value⟩ | ⟨many, value | value⟩
    · have digit : c.isDigit = true := (isDigit_of_toLower few digit).1
      rw [isHexDigit, hexDigitValue, digit, Bool.true_or, Bool.true_or, if_pos rfl]
      exact ⟨rfl, by omega⟩
    · have first : 'a'.toNat = 97 := rfl
      have last : 'f'.toNat = 102 := rfl
      have inside : 'a' ≤ c ∧ c ≤ 'f' := by
        rw [char_le_iff, char_le_iff]
        omega
      rw [isHexDigit, hexDigitValue, isDigit_of_letter (by omega), if_neg Bool.false_ne_true,
        if_pos inside.1]
      exact ⟨by simp [inside], by omega⟩
    · have first : 'A'.toNat = 65 := rfl
      have last : 'F'.toNat = 70 := rfl
      have lower : 'a'.toNat = 97 := rfl
      have inside : 'A' ≤ c ∧ c ≤ 'F' := by
        rw [char_le_iff, char_le_iff]
        omega
      have capital : ¬ 'a' ≤ c := by
        rw [char_le_iff]
        omega
      rw [isHexDigit, hexDigitValue, isDigit_of_letter (by omega), if_neg Bool.false_ne_true,
        if_neg capital]
      exact ⟨by simp [inside], by omega⟩

theorem ofDigitChars_concat (base : Nat) (cs : List Char) (c : Char) :
    Nat.ofDigitChars base (cs ++ [c]) 0 =
      base * Nat.ofDigitChars base cs 0 + (c.toNat - '0'.toNat) := by
  rw [Nat.ofDigitChars_append, Nat.ofDigitChars_cons, Nat.ofDigitChars_nil]

theorem readsBase_two : ReadsBase 2 isBit (fun c => c.toNat - '0'.toNat) bitsValue where
  nil := rfl
  concat := ofDigitChars_concat 2
  digit d small c digit := by
    refine ⟨?_, (isDigit_of_toLower (by omega) digit).2⟩
    obtain ⟨-, value⟩ : d < 10 ∧ c.toNat = 48 + d := by
      have own := toNat_of_toLower (by omega) digit
      omega
    have either : c = '0' ∨ c = '1' := by
      rcases Nat.lt_or_ge d 1 with none | one
      · exact .inl (Char.toNat_inj.mp (by rw [value]; show 48 + d = 48; omega))
      · exact .inr (Char.toNat_inj.mp (by rw [value]; show 48 + d = 49; omega))
    simpa [isBit] using either

theorem readsBase_ten :
    ReadsBase 10 Char.isDigit (fun c => c.toNat - '0'.toNat) Decimal.digitsValue where
  nil := rfl
  concat := ofDigitChars_concat 10
  digit _ small _ digit := isDigit_of_toLower small digit

end NetSpec
