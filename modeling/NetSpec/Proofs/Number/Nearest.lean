import Mathlib
import NetSpec.Number.Shortest

/-!
# Reading decimals back

Rounding a quotient depends on its value alone, so decimals of equal value have equal codes,
and the bounds by which `Decimal.code` settles extreme powers of ten agree with rounding them.
The magnitude of a finite code is rounded to that code. So the shortest decimal of a code
reads back as the code, whichever of the candidates it is.
-/

namespace NetSpec

namespace Binary64

theorem unitsInOne_eq : unitsInOne = 2 ^ 1074 := by
  -- The exponent is kept general, for the power itself would be a number of 324 digits.
  have power (n : Nat) : 1 <<< n = 2 ^ n := Nat.one_shiftLeft n
  exact power 1074

theorem unitsInOne_pos : 0 < unitsInOne := by
  rw [unitsInOne_eq]
  exact pow_pos two_pos 1074

section Scaling

variable {k : Nat} (positive : 0 < k) (num den : Nat)

include positive

theorem roundHalfEven_scale : roundHalfEven (k * num) (k * den) = roundHalfEven num den := by
  have less (a b : Nat) : k * a < k * b ↔ a < b := Nat.mul_lt_mul_left positive
  have twice : 2 * (k * num % (k * den)) = k * (2 * (num % den)) := by
    rw [Nat.mul_mod_mul_left, Nat.mul_left_comm]
  simp only [roundHalfEven, Nat.mul_div_mul_left num den positive, twice, less]

/-- The nearest code depends on the value of the quotient only. -/
theorem nearest_scale : nearest (k * num) (k * den) = nearest num den := by
  have scaled : k * num * unitsInOne = k * (num * unitsInOne) := Nat.mul_assoc ..
  have shifted (s : Nat) : (k * den) <<< s = k * (den <<< s) := by
    rw [Nat.shiftLeft_eq, Nat.shiftLeft_eq, Nat.mul_assoc]
  simp only [nearest, scaled, shifted, Nat.mul_div_mul_left _ den positive,
    roundHalfEven_scale positive]

end Scaling

/-- A whole quotient is rounded to itself. -/
theorem roundHalfEven_mul {den : Nat} (n : Nat) (positive : 0 < den) :
    roundHalfEven (n * den) den = n := by
  simp [roundHalfEven, Nat.mul_div_cancel n positive, positive]

/-- Less than half a unit is rounded away. -/
theorem nearest_of_small {num den : Nat} (small : 2 * (num * unitsInOne) < den) :
    nearest num den = 0 := by
  have whole : num * unitsInOne / den = 0 := Nat.div_eq_of_lt (by omega)
  have part : num * unitsInOne % den = num * unitsInOne := Nat.mod_eq_of_lt (by omega)
  have rounded : roundHalfEven (num * unitsInOne) den = 0 := by
    simp only [roundHalfEven, whole, part, if_pos small]
  simp [nearest, whole, rounded]

/-- What takes more than 1024 bits is infinite. -/
theorem nearest_of_large {num n : Nat} (large : 2 ^ n ≤ num) (beyond : 1024 < n) :
    nearest num 1 = infinityCode := by
  have bound : 2 ^ (n + 1074) ≤ num * unitsInOne := by
    rw [unitsInOne_eq, pow_add]
    exact Nat.mul_le_mul_right _ large
  have notZero : num * unitsInOne ≠ 0 :=
    Nat.ne_of_gt (Nat.lt_of_lt_of_le (Nat.two_pow_pos _) bound)
  have shifted : n + 1074 ≤ (num * unitsInOne).log2 := (Nat.le_log2 notZero).mpr bound
  have size : 2047 * blockSize ≤ ((num * unitsInOne).log2 - 52) * blockSize :=
    Nat.mul_le_mul_right _ (by omega)
  rw [nearest, Nat.div_one]
  exact Nat.min_eq_left (Nat.le_add_right_of_le size)

theorem log2_shiftLeft {n : Nat} (notZero : n ≠ 0) (s : Nat) : (n <<< s).log2 = n.log2 + s := by
  induction s with
  | zero => rfl
  | succ s ih =>
    have more : n <<< s ≠ 0 := by
      rw [Nat.shiftLeft_eq]
      exact Nat.mul_ne_zero notZero (Nat.ne_of_gt (Nat.two_pow_pos s))
    rw [Nat.shiftLeft_succ, Nat.log2_two_mul more, ih, Nat.add_assoc]

/-- The bits of a magnitude behind its leading one, without those of the mantissa, are those
that the mantissa is shifted by. -/
theorem log2_units (code : Nat) : (units code).log2 - 52 = shift code := by
  have size : blockSize = 2 ^ 52 := rfl
  have mantissa_eq : mantissa code = code - (code / 2 ^ 52 - 1) * 2 ^ 52 := rfl
  have shift_eq : shift code = code / 2 ^ 52 - 1 := rfl
  by_cases unshifted : shift code = 0
  · have units_eq : units code = code := by
      rw [units, unshifted, Nat.shiftLeft_zero]
      omega
    have bound : code < 2 ^ 53 := by omega
    rw [units_eq, unshifted]
    by_cases zero : code = 0
    · rw [zero, Nat.log2_zero]
    · have small := (Nat.log2_lt zero).mpr bound
      omega
  · have log : (mantissa code).log2 = 52 := by
      rw [Nat.log2_eq_iff (by omega)]
      omega
    have notZero : mantissa code ≠ 0 := by omega
    rw [units, log2_shiftLeft notZero, log]
    omega

theorem shift_mul_add_mantissa (code : Nat) : shift code * blockSize + mantissa code = code := by
  have le : shift code * blockSize ≤ code :=
    Nat.le_trans (Nat.mul_le_mul_right _ (Nat.sub_le _ 1)) (Nat.div_mul_le_self code blockSize)
  rw [mantissa]
  omega

/-- The magnitude of a finite code is rounded to the code. -/
theorem nearest_units {code : Nat} (finite : code < infinityCode) :
    nearest (units code) unitsInOne = code := by
  have whole : units code * unitsInOne / unitsInOne = units code :=
    Nat.mul_div_cancel _ unitsInOne_pos
  have shifted : units code * unitsInOne = mantissa code * (unitsInOne <<< shift code) := by
    rw [units, Nat.shiftLeft_eq, Nat.shiftLeft_eq, Nat.mul_assoc, Nat.mul_comm unitsInOne]
  have positive : 0 < unitsInOne <<< shift code := by
    rw [Nat.shiftLeft_eq]
    exact Nat.mul_pos unitsInOne_pos (Nat.two_pow_pos _)
  simp only [nearest, whole, log2_units]
  rw [shifted, roundHalfEven_mul _ positive, shift_mul_add_mantissa]
  exact Nat.min_eq_right (Nat.le_of_lt finite)

end Binary64

namespace Decimal

theorem tenPow_eq (n : Nat) : tenPow n = 10 ^ n := by
  induction n with
  | zero => rfl
  | succ n ih => rw [tenPow, ih, Nat.pow_succ, Nat.mul_comm]

theorem exists_tenPow_eq (n : Nat) : ∃ k, 0 < k ∧ tenPow n = k * 2 ^ n :=
  ⟨5 ^ n, Nat.pow_pos (by decide), by rw [tenPow_eq, ← Nat.mul_pow]⟩

theorem eight_pow_le (n : Nat) : 2 ^ (3 * n) ≤ tenPow n := by
  rw [tenPow_eq, Nat.pow_mul]
  exact Nat.pow_le_pow_left (by decide) n

/-- The powers of ten that are settled by their size are no exception. -/
theorem code_eq (d : Decimal) : d.code =
    Binary64.nearest (d.digits * tenPow d.exponent.toNat) (tenPow (-d.exponent).toNat) := by
  have positive : 0 < tenPow (-d.exponent).toNat := by
    rw [tenPow_eq]
    exact Nat.pow_pos (by decide)
  rw [code]
  split
  next none =>
    rw [none, Nat.zero_mul]
    exact (Binary64.nearest_of_small (by simpa using positive)).symm
  next some =>
    split
    -- Eight to a power is a power of two and bounds that power of ten from below.
    next large =>
      have whole : (-d.exponent).toNat = 0 := by omega
      have bound : 2 ^ (3 * d.exponent.toNat) ≤ d.digits * tenPow d.exponent.toNat :=
        Nat.le_trans (eight_pow_le _) (Nat.le_mul_of_pos_left _ (Nat.pos_of_ne_zero some))
      rw [whole]
      exact (Binary64.nearest_of_large bound (by omega)).symm
    next notLarge =>
      split
      next small =>
        have whole : d.exponent.toNat = 0 := by omega
        have bound : 2 * (d.digits * Binary64.unitsInOne) < tenPow (-d.exponent).toNat := by
          calc 2 * (d.digits * Binary64.unitsInOne)
              < 2 * (2 ^ (d.digits.log2 + 1) * Binary64.unitsInOne) := by
                have less : d.digits < 2 ^ (d.digits.log2 + 1) := Nat.lt_log2_self
                have scaled := Nat.mul_lt_mul_of_pos_right less Binary64.unitsInOne_pos
                omega
            _ = 2 ^ (1 + (d.digits.log2 + 1 + 1074)) := by
                rw [Binary64.unitsInOne_eq, Nat.pow_add _ 1, Nat.pow_add _ (_ + 1), Nat.pow_one]
            _ ≤ 2 ^ (3 * (-d.exponent).toNat) := Nat.pow_le_pow_right (by decide) (by omega)
            _ ≤ tenPow (-d.exponent).toNat := eight_pow_le _
        rw [whole, tenPow, Nat.mul_one]
        exact (Binary64.nearest_of_small bound).symm
      next => rfl

theorem code_le (d : Decimal) : d.code ≤ Binary64.infinityCode := by
  rw [code_eq]
  exact Nat.min_le_left _ _

/-- A zero behind the digits is worth a power of ten. -/
theorem code_concat_zero (n : Nat) (e : Int) : code ⟨10 * n, e⟩ = code ⟨n, e + 1⟩ := by
  rw [code_eq, code_eq]
  dsimp only
  by_cases negative : e < 0
  · have places : (-e).toNat = (-(e + 1)).toNat + 1 := by omega
    have whole : e.toNat = (e + 1).toNat := by omega
    rw [places, tenPow, whole, Nat.mul_assoc]
    exact Binary64.nearest_scale (by decide) _ _
  · have places : (-e).toNat = (-(e + 1)).toNat := by omega
    have whole : (e + 1).toNat = e.toNat + 1 := by omega
    rw [places, whole, tenPow, Nat.mul_left_comm, Nat.mul_assoc]

/-- So are several. -/
theorem code_append_zeros (n k : Nat) (e : Int) : code ⟨10 ^ k * n, e⟩ = code ⟨n, e + k⟩ := by
  induction k generalizing e with
  | zero => simp
  | succ k ih =>
    have sum : e + 1 + k = e + (k + 1 : Nat) := by omega
    rw [Nat.pow_succ', Nat.mul_assoc, code_concat_zero, ih, sum]

theorem code_trim (d : Decimal) : d.trim.code = d.code := by
  fun_induction trim d with
  | case1 d none => simp [code, none]
  | case2 d some round ih =>
    have digits : 10 * (d.digits / 10) = d.digits :=
      Nat.mul_div_cancel' (Nat.dvd_of_mod_eq_zero round)
    rw [ih, ← code_concat_zero, digits]
  | case3 => rfl

/-- Zero has no power of ten. -/
theorem exponent_trim {d : Decimal} (none : d.trim.digits = 0) : d.trim.exponent = 0 := by
  fun_induction trim d with
  | case1 => rfl
  | case2 d some round ih => exact ih none
  | case3 d some round => exact absurd none some

/-- The exact decimal of a finite code reads back. -/
theorem code_exact {c : Nat} (finite : c < Binary64.infinityCode) : (exact c).code = c := by
  obtain ⟨k, positive, ten⟩ := exists_tenPow_eq 1074
  rw [← Binary64.unitsInOne_eq] at ten
  have digits : Binary64.units c * tenPow 1074 / Binary64.unitsInOne = k * Binary64.units c := by
    rw [ten, Nat.mul_comm (Binary64.units c), Nat.mul_right_comm]
    exact Nat.mul_div_cancel _ Binary64.unitsInOne_pos
  have places : (-(exact c).exponent).toNat = 1074 := rfl
  have whole : (exact c).exponent.toNat = 0 := rfl
  rw [code_eq, places, whole, exact, digits, tenPow, Nat.mul_one, ten]
  rw [Binary64.nearest_scale positive]
  exact Binary64.nearest_units finite

/-- The shortest decimal of a finite code reads back. -/
theorem code_shortest {c : Nat} (finite : c < Binary64.infinityCode) : (shortest c).code = c := by
  simp only [shortest]
  rw [code_trim]
  generalize found : List.find? (fun d : Decimal => decide (d.code = c)) _ = candidate
  cases candidate with
  | none => exact code_exact finite
  | some d => exact of_decide_eq_true (List.find?_some found :)

end Decimal

end NetSpec
