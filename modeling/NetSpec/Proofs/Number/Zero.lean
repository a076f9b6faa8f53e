import NetSpec.Proofs.Number.Bits

/-!
# Zeros and negation

A number is equal to zero if it is one of the two zeros. Negation changes the sign alone, so it
takes zeros to zeros and makes no others.
-/

namespace NetSpec.Binary64

open Float.Model
open Float.Model.UnpackedFloat

/-- An unpacked number that is one of the zeros. -/
def IsZero (u : UnpackedFloat) : Prop := ∃ s, u = .zero s

/-- A zero has neither an exponent nor a mantissa. -/
theorem isZero_unpack_iff {b : BitVec 64} : IsZero (unpack Format.binary64 b) ↔
    @unpackExponent Format.binary64 b = 0#11 ∧ @unpackMantissa Format.binary64 b = 0#52 := by
  simp only [UnpackedFloat.unpack]
  split
  next all =>
    rw [all]
    refine ⟨?_, fun none => absurd none.1 (by decide)⟩
    rintro ⟨s, same⟩
    split at same <;> cases same
  next =>
    split
    next least =>
      split
      next none => exact ⟨fun _ => ⟨least, none⟩, fun _ => ⟨_, rfl⟩⟩
      next some => exact ⟨nofun, fun none => absurd none.2 some⟩
    next more => exact ⟨nofun, fun none => absurd none.1 more⟩

theorem isZero_of_packed {b : BitVec 64} {sign : Sign} {exponent : BitVec 11}
    {mantissa : BitVec 52} (packed : b = packComponents Format.binary64 sign exponent mantissa) :
    IsZero (unpack Format.binary64 b) ↔ exponent = 0#11 ∧ mantissa = 0#52 := by
  have sameExponent := @unpackExponent_packComponents Format.binary64 sign exponent mantissa
  have sameMantissa := @unpackMantissa_packComponents Format.binary64 sign exponent mantissa
  rw [isZero_unpack_iff, packed, sameExponent, sameMantissa]

/-- The bits of the opposite number have the same exponent and the same mantissa. -/
theorem isZero_pack_neg_iff (b : BitVec 64) :
    IsZero (unpack Format.binary64 (pack Format.binary64 (unpack Format.binary64 b).neg)) ↔
      IsZero (unpack Format.binary64 b) := by
  rw [isZero_unpack_iff (b := b), UnpackedFloat.unpack.eq_def Format.binary64 b]
  dsimp only
  split
  next all =>
    rw [all]
    split
    next none =>
      rw [none]
      exact isZero_of_packed rfl
    next some => exact iff_of_false (fun ⟨_, same⟩ => nomatch same) fun none => some none.2
  next notAll =>
    split
    next least =>
      rw [least]
      split
      next none =>
        rw [none]
        exact isZero_of_packed rfl
      next some => exact isZero_of_packed (pack_subnormal _ _)
    next => exact isZero_of_packed (pack_normal _ _ notAll _)

/-- Equality with zero is a test for the zeros. -/
theorem beq_zero_iff {x : Float} : (x == 0.0) = true ↔ IsZero x.toModel.unpack := by
  have zero : (0.0 : Float).toModel.unpack = .zero .positive := rfl
  show (x.toModel.unpack.compare (0.0 : Float).toModel.unpack == some .eq) = true ↔ _
  rw [zero]
  cases x.toModel.unpack with
  | notANumber => exact ⟨nofun, nofun⟩
  | infinity s => cases s <;> exact ⟨nofun, nofun⟩
  | zero s => exact ⟨fun _ => ⟨s, rfl⟩, fun _ => rfl⟩
  | finite s m e => cases s <;> exact ⟨nofun, nofun⟩

theorem neg_beq_zero (x : Float) : (-x == 0.0) = (x == 0.0) := by
  rw [Bool.eq_iff_iff, beq_zero_iff, beq_zero_iff]
  exact isZero_pack_neg_iff x.toModel.toBits.toBitVec

end NetSpec.Binary64
