import ExprLang.Proofs.Doubles.Nearest
import ExprLang.Proofs.Doubles.Writing

/-!
Decimals are rounded once. The double of a numeral is the one to which its value rounds, also where
the numeral is so large or so small that its power of ten is not computed.
-/
namespace ExprLang

open Binary64

namespace Binary64

variable {r : ℚ} {bits : Nat}

theorem magnitude_infinityBits : (magnitude infinityBits : ℚ) = inUnits (2 ^ 1024) := by
  have hbits : infinityBits = 2046 * hiddenBit + hiddenBit := rfl
  have hsplits : Splits 2046 hiddenBit := ⟨by decide, .inr le_rfl⟩
  rw [hbits, magnitude_splits hsplits, hiddenBit_eq, ← pow_add, Nat.cast_pow, Nat.cast_ofNat,
    inUnits_eq, ← pow_add]

theorem infinityBits_le (h : RoundsTo r bits) (hr : (2 : ℚ) ^ 1024 < r) : infinityBits ≤ bits := by
  by_contra hlt
  have hlt := Nat.not_le.1 hlt
  have hle : (magnitude bits : ℚ) ≤ magnitude infinityBits :=
    Nat.cast_le.2 (magnitude_strictMono.monotone hlt.le)
  have hle' : (magnitude (bits + 1) : ℚ) ≤ magnitude infinityBits :=
    Nat.cast_le.2 (magnitude_strictMono.monotone hlt)
  have hunits : (magnitude infinityBits : ℚ) < inUnits r := by
    rw [magnitude_infinityBits, inUnits_eq, inUnits_eq]
    exact mul_lt_mul_of_pos_right hr (pow_pos two_pos 1074)
  have habove := h.above
  linarith only [habove, hunits, hle, hle']

theorem eq_zero_of_roundsTo (h : RoundsTo r bits) (hr : r * 2 ^ 1075 < 1) : bits = 0 := by
  by_contra hne
  have hlt := magnitude_strictMono (Nat.pos_of_ne_zero hne)
  rw [magnitude_zero] at hlt
  have hone : (1 : ℚ) ≤ magnitude bits := by exact_mod_cast hlt
  have hprevious : (0 : ℚ) ≤ magnitude (bits - 1) := Nat.cast_nonneg _
  have hbelow := h.below
  rw [pow_succ, ← mul_assoc, ← inUnits_eq] at hr
  linarith only [hbelow, hone, hprevious, hr]

/-- Past the greatest exponent of ten every value rounds to infinity. -/
theorem infinityBits_le_of_ten (h : RoundsTo r bits) (hr : (10 : ℚ) ^ 310 ≤ r) :
    infinityBits ≤ bits := by
  have hpower : 2 ^ 1024 < 10 ^ 310 := by decide +kernel
  have hpower : ((2 ^ 1024 : Nat) : ℚ) < ((10 ^ 310 : Nat) : ℚ) := Nat.cast_lt.2 hpower
  rw [Nat.cast_pow, Nat.cast_pow, Nat.cast_ofNat, Nat.cast_ofNat] at hpower
  exact infinityBits_le h (hpower.trans_le hr)

/-- Below the least exponent of ten every value rounds to zero. -/
theorem eq_zero_of_ten (h : RoundsTo r bits) (hr : r * 10 ^ 331 ≤ 1) (hpos : 0 ≤ r) :
    bits = 0 := by
  have hpower : 2 ^ 1075 < 10 ^ 331 := by decide +kernel
  have hpower : ((2 ^ 1075 : Nat) : ℚ) < ((10 ^ 331 : Nat) : ℚ) := Nat.cast_lt.2 hpower
  rw [Nat.cast_pow, Nat.cast_pow, Nat.cast_ofNat, Nat.cast_ofNat] at hpower
  refine eq_zero_of_roundsTo h ?_
  rcases hpos.eq_or_lt with rfl | hpos
  · rw [zero_mul]
    exact one_pos
  · exact (mul_lt_mul_of_pos_left hpower hpos).trans_le hr

end Binary64

namespace Reading

variable {n : Numeral} {bits : Nat}

/-- A numeral is rounded once, whatever its exponent is. -/
theorem Numeral.toFloat_of_roundsTo (h : RoundsTo n.value bits) :
    n.toFloat = ofMagnitude n.negative (min bits infinityBits) := by
  have hvalue : n.value = digitsValue (n.whole ++ n.fraction) *
      10 ^ (n.exponent - n.fraction.length) := rfl
  rw [hvalue] at h
  unfold Numeral.toFloat
  generalize digitsValue (n.whole ++ n.fraction) = significand at h ⊢
  generalize n.exponent - n.fraction.length = e at h ⊢
  dsimp only
  split
  case isTrue hzero =>
    rw [hzero, Nat.cast_zero, zero_mul] at h
    rw [h.unique roundsTo_zero]
    rfl
  case isFalse hne =>
  have hten : (0 : ℚ) < 10 ^ e := by positivity
  obtain ⟨k, hk⟩ : ∃ k, (Nat.toDigits 10 significand).length = k + 1 :=
    Nat.exists_eq_succ_of_ne_zero (Nat.length_toDigits_pos).ne'
  have hlow : 10 ^ k ≤ significand := by
    have hlow := Shortest.ten_pow_digitCount_le hne
    rwa [Shortest.digitCount, hk] at hlow
  have hhigh : significand < 10 ^ (k + 1) := by
    have hhigh := Shortest.lt_ten_pow_digitCount significand
    rwa [Shortest.digitCount, hk] at hhigh
  rw [hk]
  split
  case isTrue hlarge =>
    have hge : (10 : ℚ) ^ 310 ≤ significand * 10 ^ e := by
      calc (10 : ℚ) ^ 310 = 10 ^ ((310 : Nat) : Int) := (zpow_natCast _ _).symm
        _ ≤ 10 ^ ((k : Int) + e) := by
          refine zpow_le_zpow_right₀ (by norm_num) ?_
          push_cast at hlarge
          omega
        _ = 10 ^ k * 10 ^ e := by rw [zpow_add₀ (by norm_num), zpow_natCast]
        _ ≤ significand * 10 ^ e :=
          mul_le_mul_of_nonneg_right (by exact_mod_cast hlow) hten.le
    rw [min_eq_right (infinityBits_le_of_ten h hge)]
    rfl
  case isFalse =>
  split
  case isTrue hsmall =>
    have hle : (significand * 10 ^ e * 10 ^ 331 : ℚ) ≤ 1 := by
      calc (significand * 10 ^ e * 10 ^ 331 : ℚ)
          ≤ 10 ^ (k + 1) * 10 ^ e * 10 ^ 331 := by
            have hhigh : (significand : ℚ) ≤ 10 ^ (k + 1) := by exact_mod_cast hhigh.le
            exact mul_le_mul_of_nonneg_right (mul_le_mul_of_nonneg_right hhigh hten.le)
              (pow_nonneg (by norm_num) _)
        _ = 10 ^ (((k + 1 : Nat) : Int) + e + (331 : Nat)) := by
          rw [zpow_add₀ (by norm_num), zpow_add₀ (by norm_num), zpow_natCast, zpow_natCast]
        _ ≤ 1 := zpow_le_one_of_nonpos₀ (by norm_num) (by omega)
    rw [eq_zero_of_ten h hle (by positivity)]
    rfl
  case isFalse =>
  split
  case isTrue hpos =>
    refine ofRatio_of_roundsTo _ Nat.one_pos ?_
    have hpower : ((10 : ℚ) ^ e.toNat) = 10 ^ e := by
      rw [← zpow_natCast, Int.toNat_of_nonneg hpos]
    rw [Nat.cast_one, div_one, Nat.pow_eq]
    push_cast
    rwa [hpower]
  case isFalse hneg =>
    refine ofRatio_of_roundsTo _ (Nat.pow_pos (by omega)) ?_
    have hpower : ((10 : ℚ) ^ (-e).toNat) = (10 ^ e)⁻¹ := by
      rw [← zpow_natCast, Int.toNat_of_nonneg (by omega), zpow_neg]
    rw [Nat.pow_eq]
    push_cast
    rwa [hpower, div_inv_eq_mul]

end Reading

end ExprLang
