import NetSpec.Proofs.Number.Level
import NetSpec.Proofs.Number.Zero

/-!
# Signs and quotients of numbers

Packing rounds, and what it rounds to is a NaN only for a NaN. So the opposite of a number is a
number, and so is its quotient by a finite number that is not a zero. The quotient may be
infinite. A number that is not a zero has a sign, on whose side of zero it lies.
-/

namespace NetSpec.Binary64

open Float.Model
open Float.Model.UnpackedFloat

/-- A NaN has all bits of the exponent and some of the mantissa. -/
theorem isNaN_unpack_iff {b : BitVec 64} : (unpack Format.binary64 b).isNaN = true ↔
    @unpackExponent Format.binary64 b = -1#11 ∧ @unpackMantissa Format.binary64 b ≠ 0#52 := by
  simp only [UnpackedFloat.unpack]
  split
  next all =>
    split
    next none => exact ⟨nofun, fun some => absurd none some.2⟩
    next some => exact ⟨fun _ => ⟨all, some⟩, fun _ => rfl⟩
  next notAll =>
    split
    next => split <;> exact ⟨nofun, fun some => absurd some.1 notAll⟩
    next => exact ⟨nofun, fun some => absurd some.1 notAll⟩

theorem isNaN_of_packed {b : BitVec 64} {sign : Sign} {exponent : BitVec 11}
    {mantissa : BitVec 52} (packed : b = packComponents Format.binary64 sign exponent mantissa)
    (number : exponent ≠ -1#11 ∨ mantissa = 0#52) : (unpack Format.binary64 b).isNaN = false := by
  have sameExponent := @unpackExponent_packComponents Format.binary64 sign exponent mantissa
  have sameMantissa := @unpackMantissa_packComponents Format.binary64 sign exponent mantissa
  rw [← Bool.not_eq_true, isNaN_unpack_iff, packed, sameExponent, sameMantissa]
  rintro ⟨all, some⟩
  exact number.elim (· all) some

/-- Packing rounds to no NaN. -/
theorem isNaN_pack {u : UnpackedFloat} (number : u.isNaN = false) :
    (unpack Format.binary64 (pack Format.binary64 u)).isNaN = false := by
  cases u with
  | notANumber => cases number
  | infinity s => exact isNaN_of_packed rfl (.inr rfl)
  | zero s => exact isNaN_of_packed rfl (.inr rfl)
  | finite s m e positive =>
    simp only [UnpackedFloat.pack]
    split
    next => exact isNaN_of_packed rfl (.inr rfl)
    next few =>
      split
      next =>
        refine isNaN_of_packed rfl (.inl fun all => ?_)
        have exponent := congrArg BitVec.toNat all
        have most : (-1#11).toNat = 2047 := rfl
        rw [most, BitVec.toNat_ofNat] at exponent
        omega
      next => exact isNaN_of_packed rfl (.inl (by decide))

/-- A finite number that is not a zero has a mantissa. -/
theorem exists_finite {x : Float} (finite : isFinite x = true) (nonzero : (x == 0.0) = false) :
    ∃ s m e, ∃ positive : 0 < m, x.toModel.unpack = .finite s m e positive := by
  have finite := isFinite_unpack finite
  have notZero : ¬ IsZero x.toModel.unpack := by
    rw [← beq_zero_iff, nonzero]
    exact Bool.false_ne_true
  cases unpacked : x.toModel.unpack with
  | notANumber =>
    rw [unpacked] at finite
    cases finite
  | infinity s =>
    rw [unpacked] at finite
    cases finite
  | zero s => exact absurd ⟨s, unpacked⟩ notZero
  | finite s m e positive => exact ⟨s, m, e, positive, rfl⟩

theorem isNumber_neg {x : Float} (number : IsNumber x) : IsNumber (-x) := by
  refine isNaN_pack ?_
  have number : x.toModel.unpack.isNaN = false := number
  cases unpacked : x.toModel.unpack with
  | notANumber =>
    rw [unpacked] at number
    cases number
  | infinity s => rfl
  | zero s => rfl
  | finite s m e positive => rfl

theorem isNaN_roundWithAccuracy (s : Sign) (m : Nat) (e : Int) (accuracy : Accuracy) :
    (roundWithAccuracy Format.binary64 s m e accuracy).isNaN = false := by
  simp only [roundWithAccuracy]
  split <;> rfl

/-- A quotient by a finite number that is not a zero. -/
theorem isNumber_div {x y : Float} (number : IsNumber x) (finite : isFinite y = true)
    (nonzero : (y == 0.0) = false) : IsNumber (x / y) := by
  obtain ⟨s, m, e, positive, unpacked⟩ := exists_finite finite nonzero
  refine isNaN_pack ?_
  rw [unpacked]
  have number : x.toModel.unpack.isNaN = false := number
  cases unpacked : x.toModel.unpack with
  | notANumber =>
    rw [unpacked] at number
    cases number
  | infinity t => rfl
  | zero t => rfl
  | finite t n f => exact isNaN_roundWithAccuracy ..

/-- A number that is not a zero is positive or negative. -/
theorem not_zero_lt_iff {x : Float} (number : IsNumber x) (nonzero : (x == 0.0) = false) :
    ¬ 0.0 < x ↔ x < 0.0 := by
  have zero : IsNumber 0.0 := by decide +kernel
  have differ : level x ≠ level 0.0 := by
    intro same
    rw [beq_iff.mpr ⟨number, zero, same⟩] at nonzero
    cases nonzero
  rw [lt_iff, lt_iff]
  simp only [number, zero, true_and, not_lt]
  exact ⟨fun le => lt_of_le_of_ne le differ, le_of_lt⟩

end NetSpec.Binary64
