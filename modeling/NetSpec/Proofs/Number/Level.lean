import NetSpec.Proofs.Number.Bits

/-!
# The order of binary64 numbers

Comparing binary64 numbers is comparing their levels in a linear order, apart from NaNs, which
compare with nothing. The two zeros have the same level, so numbers of the same level are
equal without being the same. Whatever orders numbers by tests alone is thereby as good as
working in a linear order.
-/

namespace NetSpec.Binary64

open Float.Model

/-- Triples in the order of their first difference. -/
abbrev Level := ℤ ×ₗ ℤ ×ₗ ℤ

/-- The place of an unpacked number among the others: its class first, then its exponent and
its mantissa. -/
def levelOf : UnpackedFloat → Level
  | .infinity .negative => toLex (-2, toLex (0, 0))
  | .finite .negative m e _ => toLex (-1, toLex (-e, -m))
  | .zero _ => toLex (0, toLex (0, 0))
  | .finite .positive m e _ => toLex (1, toLex (e, m))
  | .infinity .positive => toLex (2, toLex (0, 0))
  | .notANumber => toLex (0, toLex (0, 0))

theorem compare_triple (a b c d e f : ℤ) :
    compare (toLex (a, toLex (b, c))) (toLex (d, toLex (e, f)) : Level) =
      (compare a d).then ((compare b e).then (compare c f)) := rfl

theorem compare_neg (a b : ℤ) : compare (-a) (-b) = (compare a b).swap := by
  rcases lt_trichotomy a b with h | h | h
  · rw [compare_lt_iff_lt.mpr h, compare_gt_iff_gt.mpr (by omega)]
    rfl
  · simp [h]
  · rw [compare_gt_iff_gt.mpr h, compare_lt_iff_lt.mpr (by omega)]
    rfl

theorem compare_cast (m n : Nat) : compare (m : ℤ) n = compare m n := by
  rcases lt_trichotomy m n with h | h | h
  · rw [compare_lt_iff_lt.mpr h, compare_lt_iff_lt.mpr (Int.ofNat_lt.mpr h)]
  · simp [h]
  · rw [compare_gt_iff_gt.mpr h, compare_gt_iff_gt.mpr (Int.ofNat_lt.mpr h)]

/-- Unpacked numbers compare as their levels do. -/
theorem compare_unpacked {a b : UnpackedFloat} (numberA : a.isNaN = false)
    (numberB : b.isNaN = false) : a.compare b = some (compare (levelOf a) (levelOf b)) := by
  cases a with
  | notANumber => cases numberA
  | infinity s =>
    cases b with
    | notANumber => cases numberB
    | infinity t => cases s <;> cases t <;> rfl
    | zero t => cases s <;> rfl
    | finite t m e => cases s <;> cases t <;> rfl
  | zero s =>
    cases b with
    | notANumber => cases numberB
    | infinity t => cases t <;> rfl
    | zero t => rfl
    | finite t m e => cases t <;> rfl
  | finite s m e =>
    cases b with
    | notANumber => cases numberB
    | infinity t => cases s <;> cases t <;> rfl
    | zero t => cases s <;> rfl
    | finite t n f =>
      cases s with
      | negative =>
        cases t with
        | negative =>
          rw [levelOf, levelOf, compare_triple, compare_neg e f, compare_neg m n, compare_cast]
          show some ((compare e f).then (compare m n)).swap =
            some ((compare e f).swap.then (compare m n).swap)
          rw [Ordering.swap_then]
        | positive => rfl
      | positive =>
        cases t with
        | negative => rfl
        | positive =>
          rw [levelOf, levelOf, compare_triple, compare_cast]
          rfl

theorem compare_of_isNaN {a b : UnpackedFloat} (nan : a.isNaN = true ∨ b.isNaN = true) :
    a.compare b = none := by
  rcases nan with nan | nan
  · cases a with
    | notANumber => rfl
    | infinity s => cases nan
    | zero s => cases nan
    | finite s m e => cases nan
  · cases b with
    | notANumber => cases a <;> rfl
    | infinity s => cases nan
    | zero s => cases nan
    | finite s m e => cases nan

/-- A number that can be compared. -/
def IsNumber (x : Float) : Prop := x.toModel.unpack.isNaN = false

instance (x : Float) : Decidable (IsNumber x) := inferInstanceAs (Decidable (_ = false))

/-- The place of a number among the others. -/
def level (x : Float) : Level := levelOf x.toModel.unpack

/-- Numbers compare in a given way if their levels do. -/
theorem compare_eq_some_iff {a b : Float} {ordering : Ordering} :
    a.toModel.unpack.compare b.toModel.unpack = some ordering ↔
      IsNumber a ∧ IsNumber b ∧ compare (level a) (level b) = ordering := by
  constructor
  · intro compared
    have number : ¬ (a.toModel.unpack.isNaN = true ∨ b.toModel.unpack.isNaN = true) := by
      intro nan
      rw [compare_of_isNaN nan] at compared
      cases compared
    rw [not_or, Bool.not_eq_true, Bool.not_eq_true] at number
    rw [compare_unpacked number.1 number.2] at compared
    exact ⟨number.1, number.2, Option.some.inj compared⟩
  · rintro ⟨numberA, numberB, same⟩
    rw [compare_unpacked numberA numberB, ← same]
    rfl

theorem lt_iff {a b : Float} : a < b ↔ IsNumber a ∧ IsNumber b ∧ level a < level b := by
  have tested : a < b ↔ a.toModel.unpack.compare b.toModel.unpack = some .lt := by
    show decide ((a.toModel.unpack.compare b.toModel.unpack == some .lt) = true) = true ↔ _
    simp
  rw [tested, compare_eq_some_iff, compare_lt_iff_lt]

theorem le_iff {a b : Float} : a ≤ b ↔ IsNumber a ∧ IsNumber b ∧ level a ≤ level b := by
  have tested : a ≤ b ↔ ∃ ordering, a.toModel.unpack.compare b.toModel.unpack = some ordering ∧
      ordering.isLE = true := by
    show decide ((a.toModel.unpack.compare b.toModel.unpack).any (·.isLE) = true) = true ↔ _
    rw [decide_eq_true_eq, Option.any_eq_true]
  rw [tested]
  simp only [compare_eq_some_iff, ← compare_le_iff_le]
  constructor
  · rintro ⟨ordering, ⟨numberA, numberB, same⟩, le⟩
    exact ⟨numberA, numberB, same ▸ Ordering.isLE_iff_ne_gt.mp le⟩
  · rintro ⟨numberA, numberB, le⟩
    exact ⟨_, ⟨numberA, numberB, rfl⟩, Ordering.isLE_iff_ne_gt.mpr le⟩

theorem beq_iff {a b : Float} : (a == b) = true ↔ IsNumber a ∧ IsNumber b ∧ level a = level b := by
  have tested : (a == b) = true ↔ a.toModel.unpack.compare b.toModel.unpack = some .eq := by
    show (a.toModel.unpack.compare b.toModel.unpack == some .eq) = true ↔ _
    simp
  rw [tested, compare_eq_some_iff, compare_eq_iff_eq]

section Codes

open UnpackedFloat

theorem toNat_mantissa (b : BitVec 64) :
    (@unpackMantissa Format.binary64 b).toNat = b.toNat % 2 ^ 52 := by
  simp [unpackMantissa, BitVec.extractLsb_toNat]

theorem toNat_exponent (b : BitVec 64) :
    (@unpackExponent Format.binary64 b).toNat = b.toNat / 2 ^ 52 % 2 ^ 11 := by
  simp [unpackExponent, BitVec.extractLsb_toNat, Nat.shiftRight_eq_div_pow]

theorem toNat_sign (b : BitVec 64) :
    (@unpackSign Format.binary64 b).toNat = b.toNat / 2 ^ 63 := by
  have bound : b.toNat < 2 ^ 64 := b.isLt
  simp [unpackSign, BitVec.extractLsb_toNat, Nat.shiftRight_eq_div_pow]
  omega

/-- What bits unpack to, by their sign and their code. -/
inductive Unpacked (s : Sign) : Nat → UnpackedFloat → Prop where
  | zero : Unpacked s 0 (.zero s)
  | finite {code : Nat} (some : 0 < code) (few : code < infinityCode)
      (positive : 0 < mantissa code) :
      Unpacked s code (.finite s (mantissa code) ((shift code : ℤ) - 1074) positive)
  | infinity : Unpacked s infinityCode (.infinity s)
  | notANumber {code : Nat} (many : infinityCode < code) : Unpacked s code .notANumber

theorem Unpacked.of_eq {s : Sign} {code m : Nat} {e : ℤ} {positive : 0 < m} (some : 0 < code)
    (few : code < infinityCode) (sameMantissa : m = mantissa code)
    (sameExponent : e = (shift code : ℤ) - 1074) : Unpacked s code (.finite s m e positive) := by
  subst sameMantissa sameExponent
  exact .finite some few positive

theorem unpacked (b : BitVec 64) :
    Unpacked (Sign.ofBitVec (@unpackSign Format.binary64 b)) (b.toNat % signWeight)
      (UnpackedFloat.unpack Format.binary64 b) := by
  have size : blockSize = 2 ^ 52 := rfl
  have limit : infinityCode = 2047 * 2 ^ 52 := rfl
  have mantissa_eq := toNat_mantissa b
  have exponent_eq := toNat_exponent b
  show Unpacked _ (b.toNat % 2 ^ 63) _
  simp only [UnpackedFloat.unpack]
  split
  next all =>
    rw [all] at exponent_eq
    have most : (-1#11).toNat = 2047 := rfl
    split
    next none =>
      rw [none] at mantissa_eq
      have first : (0#52).toNat = 0 := rfl
      have same : b.toNat % 2 ^ 63 = infinityCode := by omega
      rw [same]
      exact .infinity
    next some =>
      have notZero : (@unpackMantissa Format.binary64 b).toNat ≠ 0 :=
        fun zero => some (BitVec.eq_of_toNat_eq zero)
      exact .notANumber (by omega)
  next notAll =>
    have few : (@unpackExponent Format.binary64 b).toNat ≠ 2047 :=
      fun same => notAll (BitVec.eq_of_toNat_eq same)
    split
    next least =>
      rw [least] at exponent_eq
      have first : (0#11).toNat = 0 := rfl
      split
      next none =>
        rw [none] at mantissa_eq
        have first : (0#52).toNat = 0 := rfl
        have zero : b.toNat % 2 ^ 63 = 0 := by omega
        rw [zero]
        exact .zero
      next some =>
        have notZero : (@unpackMantissa Format.binary64 b).toNat ≠ 0 :=
          fun zero => some (BitVec.eq_of_toNat_eq zero)
        refine .of_eq (by omega) (by omega) ?_ ?_
        · rw [mantissa, shift, size]
          omega
        · show ((@unpackExponent Format.binary64 b).toNat : ℤ) - ((1023 : Nat) + (52 : Nat)) + 1 = _
          rw [least, shift, size]
          omega
    next more =>
      have notZero : (@unpackExponent Format.binary64 b).toNat ≠ 0 :=
        fun zero => more (BitVec.eq_of_toNat_eq zero)
      refine .of_eq (by omega) (by omega) ?_ ?_
      · rw [toNat_leading_one, mantissa, shift, size]
        omega
      · show ((@unpackExponent Format.binary64 b).toNat : ℤ) - ((1023 : Nat) + (52 : Nat)) = _
        rw [shift, size]
        omega

/-- The sign of a number by its first bit. -/
def sign (x : Float) : Sign := if isNegative x then .negative else .positive

theorem unpacked_toModel (x : Float) : Unpacked (sign x) (code x) x.toModel.unpack := by
  have first : Sign.ofBitVec (@unpackSign Format.binary64 x.toBits.toBitVec) = sign x := by
    have weight : signWeight = 2 ^ 63 := rfl
    have value := toNat_sign x.toBits.toBitVec
    have bound := x.toBits.toNat_lt
    have same : x.toBits.toBitVec.toNat = x.toBits.toNat := rfl
    rw [Sign.ofBitVec, sign, isNegative]
    by_cases negative : signWeight ≤ x.toBits.toNat
    · rw [decide_eq_true negative, if_pos rfl, if_neg]
      intro zero
      rw [zero] at value
      have none : (0#1).toNat = 0 := rfl
      omega
    · rw [decide_eq_false negative, if_neg Bool.false_ne_true, if_pos]
      refine BitVec.eq_of_toNat_eq ?_
      rw [value]
      show _ = 0
      omega
  rw [← first]
  exact unpacked x.toBits.toBitVec

/-- The level of a positive number with a finite code. -/
def levelOfCode (code : Nat) : Level :=
  if code = 0 then toLex (0, toLex (0, 0))
  else toLex (1, toLex ((shift code : ℤ) - 1074, (mantissa code : ℤ)))

theorem level_eq {x : Float} (positive : isNegative x = false) (finite : isFinite x = true) :
    level x = levelOfCode (code x) := by
  have finite : code x < infinityCode := of_decide_eq_true finite
  have unpacked := unpacked_toModel x
  rw [sign, positive, if_neg Bool.false_ne_true] at unpacked
  rw [level]
  generalize code x = c, x.toModel.unpack = u at unpacked finite
  cases unpacked with
  | zero => rfl
  | finite some few => exact (if_neg (Nat.ne_of_gt some)).symm
  | infinity => exact absurd finite (Nat.lt_irrefl _)
  | notANumber many => exact absurd finite (Nat.lt_asymm many)

theorem levelOfCode_lt {c d : Nat} (less : c < d) : levelOfCode c < levelOfCode d := by
  simp only [levelOfCode]
  have notZero : d ≠ 0 := by omega
  rw [if_neg notZero]
  split
  next => exact Prod.Lex.toLex_lt_toLex.mpr (.inl Int.one_pos)
  next positive =>
    refine Prod.Lex.toLex_lt_toLex.mpr (.inr ⟨rfl, ?_⟩)
    refine Prod.Lex.toLex_lt_toLex.mpr ?_
    have size : blockSize = 4503599627370496 := rfl
    unfold mantissa shift
    rw [size]
    dsimp only
    omega

theorem isFinite_unpack {x : Float} (finite : isFinite x = true) :
    x.toModel.unpack.isFinite = true := by
  have finite : code x < infinityCode := of_decide_eq_true finite
  have unpacked := unpacked_toModel x
  generalize code x = c, x.toModel.unpack = u at unpacked finite ⊢
  cases unpacked with
  | zero => rfl
  | finite _ _ => rfl
  | infinity => exact absurd finite (Nat.lt_irrefl _)
  | notANumber many => exact absurd finite (Nat.lt_asymm many)

/-- Up to that of infinity a code is that of a number. -/
theorem isNumber_iff {x : Float} : IsNumber x ↔ code x ≤ infinityCode := by
  have unpacked := unpacked_toModel x
  rw [IsNumber]
  generalize code x = c, x.toModel.unpack = u at unpacked ⊢
  cases unpacked with
  | zero => exact ⟨fun _ => Nat.zero_le _, fun _ => rfl⟩
  | finite _ few => exact ⟨fun _ => Nat.le_of_lt few, fun _ => rfl⟩
  | infinity => exact ⟨fun _ => Nat.le_refl _, fun _ => rfl⟩
  | notANumber many => exact ⟨nofun, fun few => absurd few (Nat.not_le_of_lt many)⟩

/-- A finite number can be compared. -/
theorem isNumber_of_isFinite {x : Float} (finite : isFinite x = true) : IsNumber x :=
  isNumber_iff.mpr (Nat.le_of_lt (of_decide_eq_true finite))

section Positive

variable {x y : Float} (positiveX : isNegative x = false) (finiteX : isFinite x = true)
  (positiveY : isNegative y = false) (finiteY : isFinite y = true)

include positiveX finiteX positiveY finiteY

/-- Positive numbers are in the order of their codes. -/
theorem le_iff_code_le : x ≤ y ↔ code x ≤ code y := by
  have monotone : StrictMono levelOfCode := fun _ _ => levelOfCode_lt
  rw [le_iff, level_eq positiveX finiteX, level_eq positiveY finiteY, monotone.le_iff_le]
  simp [isNumber_of_isFinite finiteX, isNumber_of_isFinite finiteY]

theorem lt_iff_code_lt : x < y ↔ code x < code y := by
  have monotone : StrictMono levelOfCode := fun _ _ => levelOfCode_lt
  rw [lt_iff, level_eq positiveX finiteX, level_eq positiveY finiteY, monotone.lt_iff_lt]
  simp [isNumber_of_isFinite finiteX, isNumber_of_isFinite finiteY]

theorem beq_iff_code_eq : (x == y) = true ↔ code x = code y := by
  have monotone : StrictMono levelOfCode := fun _ _ => levelOfCode_lt
  rw [beq_iff, level_eq positiveX finiteX, level_eq positiveY finiteY, monotone.injective.eq_iff]
  simp [isNumber_of_isFinite finiteX, isNumber_of_isFinite finiteY]

end Positive

end Codes

end NetSpec.Binary64
