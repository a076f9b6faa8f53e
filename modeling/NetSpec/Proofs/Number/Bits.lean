import Mathlib
import NetSpec.Number.Binary64

/-!
# The bits of binary64 numbers

A binary64 number is given back by its sign and its code. The sign is the first bit and the
code are the others, so what there is to show is that taking bits apart into sign, exponent
and mantissa and putting them together again loses nothing.
-/

namespace NetSpec.Binary64

open Float.Model
open Float.Model.UnpackedFloat

/-- The three parts of bits make up the bits. -/
theorem join_parts (format : Format) (b : BitVec format.numBits) :
    packComponents format (Sign.ofBitVec (unpackSign b)) (unpackExponent b) (unpackMantissa b) =
      b := by
  have sign : (Sign.ofBitVec (unpackSign b)).toBitVec = unpackSign b := by
    generalize unpackSign b = s
    revert s
    decide
  simp only [packComponents]
  rw [sign]
  refine BitVec.eq_of_getLsbD_eq fun i inside => ?_
  simp only [BitVec.getLsbD_append, unpackSign, unpackExponent, unpackMantissa,
    BitVec.getLsbD_cast, BitVec.getLsbD_extractLsb]
  by_cases inMantissa : i < format.mantissaBitsWithoutImplicit
  · have kept : i < format.mantissaBitsWithoutImplicit - 1 - 0 + 1 := by omega
    rw [if_pos inMantissa, decide_eq_true kept, Bool.true_and, Nat.zero_add]
  · rw [if_neg inMantissa]
    by_cases inExponent : i - format.mantissaBitsWithoutImplicit < format.exponentBits
    · have kept : i - format.mantissaBitsWithoutImplicit <
          format.mantissaBitsWithoutImplicit + format.exponentBits - 1 -
            format.mantissaBitsWithoutImplicit + 1 := by omega
      have place : format.mantissaBitsWithoutImplicit +
          (i - format.mantissaBitsWithoutImplicit) = i := by omega
      rw [if_pos inExponent, decide_eq_true kept, Bool.true_and, place]
    · have last : i = format.mantissaBitsWithoutImplicit + format.exponentBits := by omega
      subst last
      simp

/-- A mantissa without a leading one is packed as it stands. -/
theorem pack_subnormal (sign : Sign) {mantissa : BitVec 52} (positive : 0 < mantissa.toNat) :
    pack Format.binary64 (.finite sign mantissa.toNat (-1074) positive) =
      packComponents Format.binary64 sign 0#11 mantissa := by
  have short : mantissa.toNat.log2 + 1 ≠ Format.binary64.mantissaBits := by
    have bound := (Nat.log2_lt (by omega)).mpr mantissa.isLt
    show mantissa.toNat.log2 + 1 ≠ 53
    omega
  simp only [UnpackedFloat.pack]
  rw [if_neg (by decide), if_neg short, BitVec.ofNat_toNat, BitVec.setWidth_eq]

theorem toNat_leading_one (mantissa : BitVec 52) :
    (1#1 ++ mantissa).toNat = 2 ^ 52 + mantissa.toNat := by
  have disjoint := Nat.two_pow_add_eq_or_of_lt mantissa.isLt 1
  rw [BitVec.toNat_append, Nat.shiftLeft_eq, Nat.mul_comm]
  exact disjoint.symm

/-- A leading one is dropped from a mantissa. -/
theorem pack_normal (sign : Sign) {exponent : BitVec 11} (mantissa : BitVec 52)
    (notAll : exponent ≠ -1#11) (positive : 0 < (1#1 ++ mantissa).toNat) :
    pack Format.binary64 (.finite sign (1#1 ++ mantissa).toNat (exponent.toNat - 1075) positive) =
      packComponents Format.binary64 sign exponent mantissa := by
  have bound := mantissa.isLt
  have long : (1#1 ++ mantissa).toNat.log2 + 1 = Format.binary64.mantissaBits := by
    have log : (1#1 ++ mantissa).toNat.log2 = 52 := by
      rw [Nat.log2_eq_iff (by omega), toNat_leading_one]
      omega
    rw [log]
    rfl
  have biased : ((exponent.toNat : Int) - 1075 + Format.binary64.exponentBias +
      (52 : Nat)).toNat = exponent.toNat := by
    show ((exponent.toNat : Int) - 1075 + 1023 + 52).toNat = exponent.toNat
    omega
  have few : ¬ 2 ^ 11 ≤ exponent.toNat + 1 := by
    intro most
    have range := exponent.isLt
    exact notAll (BitVec.eq_of_toNat_eq (by simp; omega))
  have rest : BitVec.ofNat 52 (1#1 ++ mantissa).toNat = mantissa := by
    refine BitVec.eq_of_toNat_eq ?_
    rw [BitVec.toNat_ofNat, toNat_leading_one]
    omega
  simp only [UnpackedFloat.pack]
  rw [biased, if_neg few, if_pos long, BitVec.ofNat_toNat, BitVec.setWidth_eq, rest]

/-- Bits that are no NaN, or the one NaN, are packed as they were unpacked. -/
theorem pack_unpack {b : BitVec 64} (valid : Format.binary64.Valid b) :
    pack Format.binary64 (unpack Format.binary64 b) = b := by
  have parts := join_parts Format.binary64 b
  simp only [UnpackedFloat.unpack]
  split
  next all =>
    split
    next none =>
      rw [all, none] at parts
      exact parts
    next some => exact (valid.eq_packedNaN all some).symm
  next notAll =>
    split
    next least =>
      split
      next none =>
        rw [least, none] at parts
        exact parts
      next some =>
        rw [least] at parts ⊢
        exact (pack_subnormal _ _).trans parts
    next => exact (pack_normal _ _ notAll _).trans parts

theorem ofBits_toBits (x : Float) : Float.ofBits x.toBits = x := by
  obtain ⟨⟨bits, valid⟩⟩ := x
  have packed : (Float.Model.ofBits bits).toBits = bits := by
    show UInt64.ofBitVec (UnpackedFloat.pack Format.binary64
      (UnpackedFloat.unpack Format.binary64 bits.toBitVec)) = bits
    rw [pack_unpack valid]
  have same : Float.Model.ofBits bits = ⟨bits, valid⟩ := by
    cases made : Float.Model.ofBits bits with
    | mk bits' valid' =>
      rw [made] at packed
      cases packed
      rfl
  exact congrArg Float.ofModel same

/-- A number is the number of its sign and its code. -/
theorem toFloat_code (x : Float) : toFloat (isNegative x) (code x) = x := by
  have bound := x.toBits.toNat_lt
  have whole : (if isNegative x then signWeight + code x else code x) = x.toBits.toNat := by
    have weight : signWeight = 2 ^ 63 := rfl
    unfold isNegative code
    rw [weight]
    split
    next negative =>
      have negative := of_decide_eq_true negative
      omega
    next positive =>
      have positive : ¬ 2 ^ 63 ≤ x.toBits.toNat := by simpa using positive
      omega
  rw [toFloat, whole, UInt64.ofNat_toNat, ofBits_toBits]

end NetSpec.Binary64
