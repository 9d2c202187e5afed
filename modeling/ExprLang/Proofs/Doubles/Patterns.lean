import ExprLang.Number.Binary64
import Mathlib

/-!
Doubles as bit patterns. A pattern that is not that of a NaN is kept as it is, and doubles with the
same sign and magnitude are the same.
-/
namespace ExprLang.Binary64

open Float.Model Float.Model.UnpackedFloat

variable {x y : Float} {negative : Bool} {bits : Nat}

/-- Whether a pattern is that of a NaN, as a number. -/
theorem isNaNBits_eq_false_iff {b : UInt64} :
    @isNaNBits .binary64 b.toBitVec = false ↔ b.toNat % signBit ≤ infinityBits := by
  rw [isNaNBits, decide_eq_false_iff_not, ← BitVec.toNat_inj, Ne, ← BitVec.toNat_inj,
    unpackExponent_def, BitVec.extractLsb'_toNat, Nat.shiftRight_eq_div_pow, unpackMantissa_def,
    BitVec.extractLsb'_toNat, Nat.shiftRight_zero]
  simp only [UInt64.toNat_toBitVec, BitVec.toNat_neg, BitVec.toNat_ofNat]
  norm_num [signBit, infinityBits, hiddenBit]
  omega

theorem toBits_ofBits {b : UInt64} (h : b.toNat % signBit ≤ infinityBits) :
    (Float.ofBits b).toBits = b := by
  refine UInt64.toBitVec_inj.1 ?_
  refine (@pack_unpack .binary64 b.toBitVec (by decide)).trans ?_
  rw [isNaNBits_eq_false_iff.2 h]
  rfl

theorem toNat_toBits_ofMagnitude (h : bits ≤ infinityBits) :
    (ofMagnitude negative bits).toBits.toNat = (if negative then signBit else 0) + bits := by
  have hlt : (if negative then signBit else 0) + bits < 2 ^ 64 := by
    norm_num [signBit, infinityBits, hiddenBit] at h ⊢
    split <;> omega
  have hnat := UInt64.toNat_ofNat_of_lt' hlt
  rw [ofMagnitude, toBits_ofBits, hnat]
  rw [hnat]
  norm_num [signBit, infinityBits, hiddenBit] at h ⊢
  split <;> omega

theorem magnitudeBits_ofMagnitude (h : bits ≤ infinityBits) :
    magnitudeBits (ofMagnitude negative bits) = bits := by
  rw [magnitudeBits, toNat_toBits_ofMagnitude h]
  norm_num [signBit, infinityBits, hiddenBit] at h ⊢
  split <;> omega

theorem isNegative_ofMagnitude (h : bits ≤ infinityBits) :
    isNegative (ofMagnitude negative bits) = negative := by
  rw [isNegative, toNat_toBits_ofMagnitude h]
  cases negative with
  | true => exact decide_eq_true (Nat.le_add_right _ _)
  | false =>
    norm_num [signBit, infinityBits, hiddenBit] at h ⊢
    omega

theorem eq_of_magnitudeBits (hsign : isNegative x = isNegative y)
    (h : magnitudeBits x = magnitudeBits y) : x = y := by
  rw [← Float.toBits_inj, ← UInt64.toNat_inj]
  have hx := x.toBits.toNat_lt
  have hy := y.toBits.toNat_lt
  rw [isNegative, isNegative, decide_eq_decide] at hsign
  norm_num [magnitudeBits, signBit] at hsign h
  omega

end ExprLang.Binary64
