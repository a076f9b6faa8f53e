import NetSpec.Proofs.Number.Level
import NetSpec.Proofs.Number.Nearest

/-!
# Rounding to the nearest number

The magnitudes of the codes form a grid that is even within a block and twice as wide in the
next one. Rounding a quotient finds a point of the grid whose neighbours are farther away, and
as the grid is increasing, so are all other points. Half-way between two points it takes the
one with the even code. Infinity stands on the grid as the power of two that would come next,
which is how a number that is too large is rounded to it.
-/

namespace NetSpec.Binary64

open Float.Model
open Float.Model.UnpackedFloat

/-! ### The grid -/

/-- A mantissa has a leading one unless its code is in the first block. -/
theorem mantissa_range (code : Nat) :
    mantissa code < 2 * blockSize ∧ (shift code = 0 ∨ blockSize ≤ mantissa code) := by
  have size : blockSize = 2 ^ 52 := rfl
  have mantissa_eq : mantissa code = code - (code / 2 ^ 52 - 1) * 2 ^ 52 := rfl
  have shift_eq : shift code = code / 2 ^ 52 - 1 := rfl
  omega

/-- The codes of a block are shifted alike. -/
theorem shift_block {s r : Nat} (short : r < 2 * blockSize) (long : s = 0 ∨ blockSize ≤ r) :
    shift (s * blockSize + r) = s := by
  have size : blockSize = 2 ^ 52 := rfl
  have shift_eq : shift (s * blockSize + r) = (s * 2 ^ 52 + r) / 2 ^ 52 - 1 := rfl
  omega

/-- Those of later blocks are shifted farther. -/
theorem le_shift_block {s r : Nat} (long : s = 0 ∨ blockSize ≤ r) :
    s ≤ shift (s * blockSize + r) := by
  have size : blockSize = 2 ^ 52 := rfl
  have shift_eq : shift (s * blockSize + r) = (s * 2 ^ 52 + r) / 2 ^ 52 - 1 := rfl
  omega

/-- The magnitude of a code is that of its bits, shifted as they are in its block. The first code of
the next block goes on with this block. -/
theorem units_block {s r : Nat} (short : r ≤ 2 * blockSize) (long : s = 0 ∨ blockSize ≤ r) :
    units (s * blockSize + r) = r * 2 ^ s := by
  have size : 0 < blockSize := by decide
  have whole := shift_mul_add_mantissa (s * blockSize + r)
  rw [units, Nat.shiftLeft_eq]
  rcases Nat.lt_or_eq_of_le short with inside | last
  · rw [shift_block inside long] at whole ⊢
    rw [Nat.add_left_cancel whole]
  · have next : s * blockSize + r = (s + 1) * blockSize + blockSize := by
      rw [last, Nat.add_mul, Nat.one_mul]
      omega
    have shifted : shift (s * blockSize + r) = s + 1 := by
      rw [next]
      exact shift_block (by omega) (.inr (Nat.le_refl _))
    have bits : mantissa (s * blockSize + r) = blockSize := by
      rw [shifted] at whole
      omega
    rw [shifted, bits, last, Nat.pow_succ, Nat.mul_comm 2, Nat.mul_assoc, Nat.mul_comm 2]

/-- From a code to the next the magnitude grows by one bit, shifted like the others. -/
theorem units_succ (code : Nat) : units (code + 1) = units code + 2 ^ shift code := by
  obtain ⟨short, long⟩ := mantissa_range code
  have whole := shift_mul_add_mantissa code
  have next : code + 1 = shift code * blockSize + (mantissa code + 1) := by omega
  rw [next, units_block (by omega) (by omega), units, Nat.shiftLeft_eq, Nat.add_mul, Nat.one_mul]

theorem strictMono_units : StrictMono units :=
  strictMono_nat_of_lt_succ fun code => by
    rw [units_succ]
    exact Nat.lt_add_of_pos_right (Nat.two_pow_pos _)

/-! ### Halves -/

/-- A whole number is at most half a unit away from a quotient, and even if it is that far. -/
structure IsHalfEven (num den whole : Nat) : Prop where
  above : 2 * (whole * den) ≤ 2 * num + den
  below : 2 * num ≤ 2 * (whole * den) + den
  even : 2 * (whole * den) = 2 * num + den ∨ 2 * num = 2 * (whole * den) + den → whole % 2 = 0

theorem isHalfEven_roundHalfEven (num : Nat) {den : Nat} (positive : 0 < den) :
    IsHalfEven num den (roundHalfEven num den) := by
  have whole := Nat.div_add_mod' num den
  have part := Nat.mod_lt num positive
  have next := Nat.add_one_mul (num / den) den
  simp only [roundHalfEven]
  generalize num / den = q, num % den = p at *
  split
  next small => exact ⟨by omega, by omega, by omega⟩
  next =>
    split
    next large => exact ⟨by omega, by omega, by omega⟩
    next =>
      rcases Nat.mod_two_eq_zero_or_one q with even | odd
      · rw [even, Nat.add_zero]
        exact ⟨by omega, by omega, by omega⟩
      · rw [odd]
        exact ⟨by omega, by omega, by omega⟩

theorem roundHalfEven_range (num den : Nat) :
    num / den ≤ roundHalfEven num den ∧ roundHalfEven num den ≤ num / den + 1 := by
  have bit := Nat.mod_lt (num / den) Nat.two_pos
  simp only [roundHalfEven]
  split
  next => omega
  next => split <;> omega

/-- A magnitude is shifted so that its leading one is that of a mantissa. -/
theorem quotient_range (n : Nat) :
    n / 2 ^ (n.log2 - 52) < 2 * blockSize ∧
      (n.log2 - 52 = 0 ∨ blockSize ≤ n / 2 ^ (n.log2 - 52)) := by
  have size : blockSize = 2 ^ 52 := rfl
  constructor
  · refine Nat.div_lt_of_lt_mul ?_
    calc n < 2 ^ (n.log2 + 1) := Nat.lt_log2_self
      _ ≤ 2 ^ (n.log2 - 52 + 53) := Nat.pow_le_pow_right Nat.two_pos (by omega)
      _ = 2 ^ (n.log2 - 52) * (2 * blockSize) := Nat.pow_add 2 _ 53
  · by_cases few : n.log2 - 52 = 0
    · exact .inl few
    · have some : n ≠ 0 := by
        rintro rfl
        exact few rfl
      refine .inr ((Nat.le_div_iff_mul_le (Nat.two_pow_pos _)).mpr ?_)
      calc blockSize * 2 ^ (n.log2 - 52) = 2 ^ (52 + (n.log2 - 52)) := (Nat.pow_add 2 52 _).symm
        _ = 2 ^ n.log2 := by rw [Nat.add_sub_cancel' (by omega)]
        _ ≤ n := Nat.log2_self_le some

/-- A quotient, counted in units, lies between the half-way points on both sides of a code,
and on one of them only if the code is even. -/
structure RoundsTo (num den code : Nat) : Prop where
  above : ∀ below, below + 1 = code → units below * den + units code * den ≤ 2 * num
  below : 2 * num ≤ units code * den + units (code + 1) * den
  even : (∃ below, below + 1 = code ∧ units below * den + units code * den = 2 * num) ∨
    2 * num = units code * den + units (code + 1) * den → code % 2 = 0

theorem shiftLeft_pos {den : Nat} (positive : 0 < den) (s : Nat) : 0 < den <<< s := by
  rw [Nat.shiftLeft_eq]
  exact Nat.mul_pos positive (Nat.two_pow_pos s)

theorem units_succ_mul (code den : Nat) :
    units (code + 1) * den = units code * den + den <<< shift code := by
  rw [units_succ, Nat.add_mul, Nat.shiftLeft_eq, Nat.mul_comm den]

/-- Rounding the bits that are left behind a shift rounds to a code. -/
theorem roundsTo_block (num : Nat) {den s : Nat} (positive : 0 < den)
    (shifted : s = (num / den).log2 - 52) :
    RoundsTo num den (s * blockSize + roundHalfEven num (den <<< s)) := by
  obtain ⟨short, long⟩ := quotient_range (num / den)
  rw [← shifted, Nat.div_div_eq_div_mul, ← Nat.shiftLeft_eq] at short long
  obtain ⟨least, most⟩ := roundHalfEven_range num (den <<< s)
  have whole : num / den <<< s * den <<< s ≤ num := Nat.div_mul_le_self num _
  obtain ⟨above, below, even⟩ := isHalfEven_roundHalfEven num (shiftLeft_pos positive s)
  generalize roundHalfEven num (den <<< s) = r, num / den <<< s = q at *
  have own : units (s * blockSize + r) * den = r * den <<< s := by
    rw [units_block (by omega) (by omega), Nat.shiftLeft_eq, Nat.mul_assoc, Nat.mul_comm den]
  have behind := units_succ_mul (s * blockSize + r) den
  have wider : den <<< s ≤ den <<< shift (s * blockSize + r) := by
    rw [Nat.shiftLeft_eq, Nat.shiftLeft_eq]
    exact Nat.mul_le_mul_left den (Nat.pow_le_pow_right Nat.two_pos (le_shift_block (by omega)))
  -- The step below is as wide as the block, unless the quotient is not below the code.
  have before {b : Nat} (same : b + 1 = s * blockSize + r) :
      units b * den + den <<< shift b = r * den <<< s ∧ 0 < den <<< shift b ∧
        (r * den <<< s ≤ num ∨ den <<< shift b = den <<< s) := by
    refine ⟨by rw [← units_succ_mul, same, own], shiftLeft_pos positive _, ?_⟩
    by_cases few : r ≤ q
    · exact .inl (Nat.le_trans (Nat.mul_le_mul_right _ few) whole)
    · obtain rfl : b = s * blockSize + q := by omega
      rw [shift_block short long]
      exact .inr rfl
  refine ⟨fun b same => ?_, by omega, fun half => ?_⟩
  · obtain ⟨near, some, few | alike⟩ := before same <;> omega
  · have blocks : s * blockSize = s * 2 ^ 52 := rfl
    suffices r % 2 = 0 by omega
    refine even ?_
    rcases half with ⟨b, same, half⟩ | half
    · obtain ⟨near, some, few | alike⟩ := before same <;> omega
    · omega

/-! ### Values -/

/-- A magnitude with a sign. -/
def signed : Sign → ℚ → ℚ
  | .positive, q => q
  | .negative, q => -q

/-- The value of an unpacked number. Infinity stands where the next power of two would. -/
def valueOf : UnpackedFloat → ℚ
  | .finite s m e _ => signed s (m * 2 ^ e)
  | .infinity s => signed s (2 ^ 1024)
  | .zero _ | .notANumber => 0

/-- The value of a number. -/
def value (x : Float) : ℚ := valueOf x.toModel.unpack

/-- The magnitude of a code. -/
def magnitude (code : Nat) : ℚ := units code / unitsInOne

theorem magnitude_zero : magnitude 0 = 0 := by
  have none : units 0 = 0 := rfl
  rw [magnitude, none, Nat.cast_zero, zero_div]

theorem strictMono_magnitude : StrictMono magnitude := by
  intro c d less
  have positive : (0 : ℚ) < unitsInOne := Nat.cast_pos.mpr unitsInOne_pos
  exact (div_lt_div_iff_of_pos_right positive).mpr (Nat.cast_lt.mpr (strictMono_units less))

theorem magnitude_nonneg (code : Nat) : 0 ≤ magnitude code := by
  rw [← magnitude_zero]
  exact strictMono_magnitude.monotone (Nat.zero_le code)

theorem magnitude_eq (code : Nat) :
    magnitude code = mantissa code * 2 ^ ((shift code : ℤ) - 1074) := by
  rw [magnitude, unitsInOne_eq, units, Nat.shiftLeft_eq, Nat.cast_mul, Nat.cast_pow,
    Nat.cast_pow, Nat.cast_two, zpow_sub₀ two_ne_zero, mul_div_assoc, zpow_natCast]
  rfl

theorem magnitude_infinityCode : magnitude infinityCode = 2 ^ 1024 := by
  have bits : mantissa infinityCode = 2 ^ 52 := rfl
  have shifted : shift infinityCode = 2046 := rfl
  rw [magnitude_eq, bits, shifted, Nat.cast_pow, Nat.cast_two, ← zpow_natCast,
    ← zpow_add₀ two_ne_zero, ← zpow_natCast]
  rfl

/-- The value of a number is that of its sign and its code. -/
theorem value_eq {x : Float} (number : IsNumber x) :
    value x = signed (sign x) (magnitude (code x)) := by
  have few := isNumber_iff.mp number
  have unpacked := unpacked_toModel x
  rw [value]
  generalize code x = c, x.toModel.unpack = u at unpacked few ⊢
  cases unpacked with
  | zero =>
    rw [magnitude_zero]
    cases sign x with
    | positive => rfl
    | negative => exact neg_zero.symm
  | finite => rw [valueOf, magnitude_eq]
  | infinity => rw [valueOf, magnitude_infinityCode]
  | notANumber many => exact absurd few (Nat.not_le_of_lt many)

/-! ### Nearest numbers -/

/-- Of two values the upper one is nearer to what is not below their middle. -/
theorem upper_nearer {low high q : ℚ} (less : low < high) (middle : low + high ≤ 2 * q) :
    |high - q| ≤ |low - q| ∧ (|low - q| = |high - q| → low + high = 2 * q) := by
  have far : |low - q| = q - low := by
    rw [abs_sub_comm]
    exact abs_of_nonneg (by linarith)
  refine ⟨?_, fun same => ?_⟩
  · rw [far]
    exact abs_le.mpr ⟨by linarith, by linarith⟩
  · rcases abs_eq_abs.mp same with same | same <;> linarith

/-- The lower one is nearer to what is not above it. -/
theorem lower_nearer {low high q : ℚ} (less : low < high) (middle : 2 * q ≤ low + high) :
    |low - q| ≤ |high - q| ∧ (|high - q| = |low - q| → low + high = 2 * q) := by
  have far : |high - q| = high - q := abs_of_nonneg (by linarith)
  refine ⟨?_, fun same => ?_⟩
  · rw [far]
    exact abs_le.mpr ⟨by linarith, by linarith⟩
  · rcases abs_eq_abs.mp same with same | same <;> linarith

section Quotient

variable {num den : Nat} (positive : 0 < den)

include positive

theorem middle_iff (c d : Nat) :
    (magnitude c + magnitude d ≤ 2 * (num / den : ℚ) ↔
      units c * den + units d * den ≤ 2 * (num * unitsInOne)) ∧
    (2 * (num / den : ℚ) ≤ magnitude c + magnitude d ↔
      2 * (num * unitsInOne) ≤ units c * den + units d * den) := by
  have one : (0 : ℚ) < unitsInOne := Nat.cast_pos.mpr unitsInOne_pos
  have positive : (0 : ℚ) < den := Nat.cast_pos.mpr positive
  have left : ((units c * den + units d * den : Nat) : ℚ) =
      (units c + units d) * den := by
    rw [Nat.cast_add, Nat.cast_mul, Nat.cast_mul, add_mul]
  have right : ((2 * (num * unitsInOne) : Nat) : ℚ) = 2 * num * unitsInOne := by
    rw [Nat.cast_mul, Nat.cast_mul, Nat.cast_two, mul_assoc]
  rw [magnitude, magnitude, ← add_div, ← mul_div_assoc, div_le_div_iff₀ one positive,
    div_le_div_iff₀ positive one, ← left, ← right, Nat.cast_le, Nat.cast_le]
  exact ⟨Iff.rfl, Iff.rfl⟩

/-- The code of a quotient is nearest to it among all codes, and even if it is not alone. -/
theorem nearest_spec {code : Nat} (few : code ≤ infinityCode) :
    |magnitude (nearest num den) - num / den| ≤ |magnitude code - num / den| ∧
      (|magnitude code - num / den| = |magnitude (nearest num den) - num / den| →
        code ≠ nearest num den → nearest num den % 2 = 0) := by
  have rounds := roundsTo_block (num * unitsInOne) positive rfl
  have least : nearest num den = min infinityCode _ := rfl
  generalize _ * blockSize + roundHalfEven (num * unitsInOne) _ = rounded at rounds least
  have middle := @middle_iff num den positive
  have monotone := strictMono_magnitude.monotone
  rcases Nat.lt_trichotomy code (nearest num den) with less | same | more
  · obtain ⟨b, rfl⟩ : ∃ b, rounded = b + 1 := ⟨rounded - 1, by omega⟩
    have above := (middle b (b + 1)).1.mpr (rounds.above b rfl)
    have lower := monotone (show code ≤ b by omega)
    have upper := monotone (show nearest num den ≤ b + 1 by omega)
    have nearer := upper_nearer (q := num / den) (strictMono_magnitude less) (by linarith)
    refine ⟨nearer.1, fun tie _ => ?_⟩
    have tie := nearer.2 tie
    have same := strictMono_magnitude.injective
      (show magnitude (nearest num den) = magnitude (b + 1) by linarith)
    rw [same]
    refine rounds.even (.inl ⟨b, rfl, le_antisymm (rounds.above b rfl) ?_⟩)
    exact (middle b (b + 1)).2.mp (by linarith)
  · rw [same]
    exact ⟨le_refl _, fun _ differ => absurd rfl differ⟩
  · have same : nearest num den = rounded := by omega
    rw [same] at more ⊢
    have below := (middle rounded (rounded + 1)).2.mpr rounds.below
    have upper := monotone (show rounded + 1 ≤ code from more)
    have nearer := lower_nearer (q := num / den) (strictMono_magnitude more) (by linarith)
    refine ⟨nearer.1, fun tie _ => rounds.even (.inr (le_antisymm rounds.below ?_))⟩
    have tie := nearer.2 tie
    exact (middle rounded (rounded + 1)).1.mp (by linarith)

end Quotient

/-! ### Numbers of codes -/

/-- Bits are kept if their code is that of a number. -/
theorem toBits_ofBits {bits : UInt64} (few : bits.toNat % 2 ^ 63 ≤ infinityCode) :
    (Float.ofBits bits).toBits = bits := by
  have valid : Format.binary64.Valid bits.toBitVec := by
    refine ⟨fun all some => absurd few ?_⟩
    have all : @unpackExponent Format.binary64 bits.toBitVec = -1#11 := all
    have limit : infinityCode = 2047 * 2 ^ 52 := rfl
    have exponent := toNat_exponent bits.toBitVec
    have mantissa := toNat_mantissa bits.toBitVec
    have same : bits.toBitVec.toNat = bits.toNat := rfl
    have most : (-1#11).toNat = 2047 := rfl
    have notZero : (@unpackMantissa Format.binary64 bits.toBitVec).toNat ≠ 0 :=
      fun zero => some (BitVec.eq_of_toNat_eq zero)
    rw [all] at exponent
    omega
  exact congrArg UInt64.ofBitVec (pack_unpack valid)

/-- A code and a sign make a number that has them. -/
theorem toFloat_spec (negative : Bool) {c : Nat} (few : c ≤ infinityCode) :
    isNegative (toFloat negative c) = negative ∧ code (toFloat negative c) = c := by
  have limit : infinityCode = 2047 * 2 ^ 52 := rfl
  show decide (2 ^ 63 ≤ (toFloat negative c).toBits.toNat) = negative ∧
    (toFloat negative c).toBits.toNat % 2 ^ 63 = c
  cases negative with
  | false =>
    have bits : (UInt64.ofNat c).toNat = c := by
      rw [UInt64.toNat_ofNat']
      omega
    have few : (UInt64.ofNat c).toNat % 2 ^ 63 ≤ infinityCode := by omega
    have kept : (toFloat false c).toBits = UInt64.ofNat c := toBits_ofBits few
    rw [kept, bits]
    exact ⟨decide_eq_false (by omega), by omega⟩
  | true =>
    have bits : (UInt64.ofNat (2 ^ 63 + c)).toNat = 2 ^ 63 + c := by
      rw [UInt64.toNat_ofNat']
      omega
    have few : (UInt64.ofNat (2 ^ 63 + c)).toNat % 2 ^ 63 ≤ infinityCode := by omega
    have kept : (toFloat true c).toBits = UInt64.ofNat (2 ^ 63 + c) := toBits_ofBits few
    rw [kept, bits]
    exact ⟨decide_eq_true (by omega), by omega⟩

theorem isNumber_toFloat (negative : Bool) {c : Nat} (few : c ≤ infinityCode) :
    IsNumber (toFloat negative c) := by
  rw [isNumber_iff, (toFloat_spec negative few).2]
  exact few

theorem value_toFloat (negative : Bool) {c : Nat} (few : c ≤ infinityCode) :
    value (toFloat negative c) = if negative then -magnitude c else magnitude c := by
  obtain ⟨sign_eq, code_eq⟩ := toFloat_spec negative few
  rw [value_eq (isNumber_toFloat negative few), sign, sign_eq, code_eq]
  cases negative <;> rfl

/-- A number nearest to a value. Half-way between two numbers it is the one whose last bit is
zero. -/
structure IsNearest (q : ℚ) (x : Float) : Prop where
  number : IsNumber x
  nearest : ∀ y, IsNumber y → |value x - q| ≤ |value y - q|
  even : ∀ y, IsNumber y → |value y - q| = |value x - q| → value y ≠ value x → code x % 2 = 0

/-- A negative value is no nearer to a quotient than its opposite, and as near only if one of
them is zero. -/
theorem opposite_farther {m q : ℚ} (nonneg : 0 ≤ m) (positive : 0 ≤ q) :
    |m - q| ≤ |-m - q| ∧ (|-m - q| = |m - q| → m = 0 ∨ q = 0) := by
  have far : |-m - q| = m + q := by
    rw [abs_sub_comm, sub_neg_eq_add, add_comm]
    exact abs_of_nonneg (by linarith)
  rw [far]
  refine ⟨abs_le.mpr ⟨by linarith, by linarith⟩, fun same => ?_⟩
  rcases abs_cases (m - q) with ⟨own, -⟩ | ⟨own, -⟩
  · exact .inr (by linarith)
  · exact .inl (by linarith)

/-- The number that a quotient is rounded to is nearest to it. -/
theorem isNearest_toFloat (num : Nat) {den : Nat} (positive : 0 < den) :
    IsNearest (num / den) (toFloat false (nearest num den)) := by
  have few : nearest num den ≤ infinityCode := Nat.min_le_left _ _
  have number := isNumber_toFloat false few
  obtain ⟨sign_eq, code_eq⟩ := toFloat_spec false few
  have own : value (toFloat false (nearest num den)) = magnitude (nearest num den) :=
    value_toFloat false few
  have quotient : (0 : ℚ) ≤ num / den := by positivity
  have spec {y : Float} (numberY : IsNumber y) :=
    @nearest_spec num den positive _ (isNumber_iff.mp numberY)
  have farther (y : Float) := opposite_farther (magnitude_nonneg (code y)) quotient
  refine ⟨number, fun y numberY => ?_, fun y numberY tie differ => ?_⟩
  · rw [own, value_eq numberY]
    cases sign y with
    | positive => exact (spec numberY).1
    | negative => exact (spec numberY).1.trans (farther y).1
  · rw [own, value_eq numberY] at tie differ
    rw [code_eq]
    generalize sign y = s at tie differ
    cases s with
    | positive => exact (spec numberY).2 tie fun same => differ (congrArg magnitude same)
    | negative =>
      have near := le_antisymm ((farther y).1.trans tie.le) (spec numberY).1
      refine (spec numberY).2 near fun same => differ ?_
      have zero : magnitude (nearest num den) = 0 := by
        rcases (farther y).2 (tie.trans near.symm) with zero | zero
        · rw [← same, zero]
        · have least := (@nearest_spec num den positive 0 (Nat.zero_le _)).1
          rw [zero, magnitude_zero, sub_zero, sub_zero, abs_zero] at least
          exact abs_nonpos_iff.mp least
      rw [signed, same, zero, neg_zero]

/-- Between two codes that are even there is another one. -/
theorem magnitude_between {c d : Nat} (evenC : c % 2 = 0) (evenD : d % 2 = 0)
    (less : magnitude c < magnitude d) :
    magnitude c < magnitude (d - 1) ∧ magnitude (d - 1) < magnitude d := by
  have less : c < d := strictMono_magnitude.lt_iff_lt.mp less
  exact ⟨strictMono_magnitude (by omega), strictMono_magnitude (by omega)⟩

/-- So there is another number between two numbers whose last bits are zero. -/
theorem exists_between {x y : Float} (numberX : IsNumber x) (numberY : IsNumber y)
    (evenX : code x % 2 = 0) (evenY : code y % 2 = 0) (less : value x < value y) :
    ∃ z, IsNumber z ∧ value x < value z ∧ value z < value y := by
  have fewX : code x - 1 ≤ infinityCode := (Nat.sub_le _ 1).trans (isNumber_iff.mp numberX)
  have fewY : code y - 1 ≤ infinityCode := (Nat.sub_le _ 1).trans (isNumber_iff.mp numberY)
  have nonnegX := magnitude_nonneg (code x)
  have nonnegY := magnitude_nonneg (code y)
  have zero := magnitude_zero
  rw [value_eq numberX, value_eq numberY] at less ⊢
  generalize sign x = s, sign y = t at less ⊢
  -- One step from the number of larger magnitude towards zero is in between.
  have below (between : magnitude (code y) < magnitude (code x)) (sign : s = .negative) :
      ∃ z, IsNumber z ∧ signed s (magnitude (code x)) < value z ∧
        value z < -magnitude (code y) := by
    obtain ⟨above, below⟩ := magnitude_between evenY evenX between
    refine ⟨_, isNumber_toFloat true fewX, ?_⟩
    rw [value_toFloat true fewX, sign]
    exact ⟨neg_lt_neg below, neg_lt_neg above⟩
  have above {c : Nat} (even : c % 2 = 0) (between : magnitude c < magnitude (code y)) :
      ∃ z, IsNumber z ∧ magnitude c < value z ∧ value z < magnitude (code y) := by
    obtain ⟨above, below⟩ := magnitude_between even evenY between
    refine ⟨_, isNumber_toFloat false fewY, ?_⟩
    rw [value_toFloat false fewY]
    exact ⟨above, below⟩
  cases s with
  | positive =>
    cases t with
    | positive => exact above evenX less
    | negative => exact absurd less (by simp only [signed]; linarith)
  | negative =>
    cases t with
    | negative => exact below (neg_lt_neg_iff.mp less) rfl
    | positive =>
      by_cases some : 0 < magnitude (code y)
      · obtain ⟨z, number, positive, less⟩ := above (c := 0) rfl (zero ▸ some)
        exact ⟨z, number, by simp only [signed]; linarith, less⟩
      · have none : magnitude (code y) = 0 := by linarith
        have less : -magnitude (code x) < magnitude (code y) := less
        rw [none] at below less
        rw [signed, signed, none]
        obtain ⟨z, number, more, less⟩ := below (by linarith) rfl
        exact ⟨z, number, more, by linarith⟩

namespace IsNearest

variable {q : ℚ} {x y : Float}

/-- There is one value nearest to another one. -/
theorem value_eq (nearestX : IsNearest q x) (nearestY : IsNearest q y) : value x = value y := by
  have same : |value x - q| = |value y - q| :=
    le_antisymm (nearestX.nearest y nearestY.number) (nearestY.nearest x nearestX.number)
  have never {x y : Float} (nearestX : IsNearest q x) (nearestY : IsNearest q y)
      (same : |value x - q| = |value y - q|) : ¬ value x < value y := by
    intro less
    have evenX := nearestX.even y nearestY.number same.symm less.ne'
    have evenY := nearestY.even x nearestX.number same less.ne
    obtain ⟨z, numberZ, above, below⟩ :=
      exists_between nearestX.number nearestY.number evenX evenY less
    have nearX := nearestX.nearest z numberZ
    have middle : value x + value y = 2 * q := by
      rcases abs_eq_abs.mp same with same | same <;> linarith
    have own : |value x - q| = q - value x := by
      rw [abs_sub_comm]
      exact abs_of_nonneg (by linarith)
    have inside : |value z - q| < q - value x := abs_lt.mpr ⟨by linarith, by linarith⟩
    linarith
  rcases lt_trichotomy (value x) (value y) with less | same | more
  · exact absurd less (never nearestX nearestY same)
  · exact same
  · exact absurd more (never nearestY nearestX same.symm)

end IsNearest

end NetSpec.Binary64
