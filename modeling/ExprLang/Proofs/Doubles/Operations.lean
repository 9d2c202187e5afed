import ExprLang.Proofs.Doubles.Nearest
import ExprLang.Proofs.Doubles.Signs

/-!
Sums and products of doubles without a sign. They are the exact sums and products, rounded once.
-/
namespace ExprLang.Binary64

open Float.Model Float.Model.UnpackedFloat

variable {k s m n bits : Nat} {e : Int} {r : ℚ} {x y : Float}

section Rounding

/-- What an extended mantissa still tells of a mantissa that is shifted by so many bits. -/
structure Tells (em : ExtendedMantissa) (m n : Nat) : Prop where
  mantissa : em.mantissa = m / 2 ^ n
  lost : ∃ low < 2 ^ n, 2 * (m % 2 ^ n) = (if em.roundBit then 2 ^ n else 0) + low ∧
    em.stickyBit = decide (low ≠ 0)

theorem tells_shiftRight (m n : Nat) :
    Tells (ExtendedMantissa.ofMantissaAndAccuracy m .exact >>> n) m n := by
  induction n with
  | zero =>
    refine ⟨(Nat.div_one m).symm, 0, Nat.one_pos, ?_, rfl⟩
    rw [pow_zero, Nat.mod_one]
    rfl
  | succ n ih =>
    change Tells (ExtendedMantissa.shiftRightOne
      (ExtendedMantissa.ofMantissaAndAccuracy m .exact >>> n)) m (n + 1)
    generalize ExtendedMantissa.ofMantissaAndAccuracy m .exact >>> n = em at ih ⊢
    obtain ⟨hmantissa, low, hlow, hlost, hsticky⟩ := ih
    have hmod : m % 2 ^ (n + 1) = m % 2 ^ n + 2 ^ n * (m / 2 ^ n % 2) := Nat.mod_pow_succ
    have hlt := Nat.mod_lt m (Nat.two_pow_pos n)
    refine ⟨?_, 2 * (m % 2 ^ n), ?_, ?_, ?_⟩
    · rw [pow_succ, ← Nat.div_div_eq_div_mul, ← hmantissa]
      rfl
    · rw [pow_succ]
      omega
    · rw [hmod, pow_succ, ExtendedMantissa.shiftRightOne, hmantissa]
      rcases Nat.mod_two_eq_zero_or_one (m / 2 ^ n) with hbit | hbit
      · simp [hbit]
      · simp [hbit]
        ring
    · rw [hlost, ExtendedMantissa.shiftRightOne, hsticky]
      cases em.roundBit with
      | true =>
        have hpos := Nat.two_pow_pos n
        simp
      | false => simp

/-- A mantissa is shifted and then rounded as a quotient is. -/
theorem roundedMantissa_shiftRight (m n : Nat) :
    (ExtendedMantissa.ofMantissaAndAccuracy m .exact >>> n).roundedMantissa =
      roundDiv m (2 ^ n) := by
  have htells := tells_shiftRight m n
  generalize ExtendedMantissa.ofMantissaAndAccuracy m .exact >>> n = em at htells ⊢
  obtain ⟨q, b, t⟩ := em
  obtain ⟨hmantissa, low, hlow, hlost, hsticky⟩ := htells
  dsimp only at hmantissa hlost hsticky
  subst hmantissa hsticky
  rw [ExtendedMantissa.roundedMantissa, roundDiv]
  have hparity := Nat.mod_two_eq_zero_or_one (m / 2 ^ n)
  by_cases hzero : low = 0 <;> cases b <;>
    simp only [hzero, ne_eq, not_true_eq_false, not_false_eq_true, decide_true, decide_false,
      ExtendedMantissa.accuracy, Accuracy.roundToNearestEven, if_true, Bool.false_eq_true,
      if_false] at hlost ⊢ <;>
    split_ifs <;> omega

end Rounding

section Packing

theorem toNat_packComponents (a b : Nat) :
    (packComponents .binary64 .positive (BitVec.ofNat _ a) (BitVec.ofNat _ b)).toNat =
      a % 2 ^ 11 * hiddenBit + b % hiddenBit := by
  rw [packComponents, BitVec.toNat_append, BitVec.toNat_append, BitVec.toNat_ofNat,
    BitVec.toNat_ofNat]
  have hsign : Sign.positive.toBitVec.toNat = 0 := rfl
  rw [hsign, Nat.zero_shiftLeft, Nat.zero_or, ← Nat.shiftLeft_add_eq_or_of_lt (Nat.mod_lt _
    (Nat.two_pow_pos _)), Nat.shiftLeft_eq]
  rfl

/-- A significand at its power of two is packed to its pattern, and to infinity past the largest
one. -/
theorem toNat_pack_splits (h : Splits k s) (hs : 0 < s) :
    (UnpackedFloat.pack .binary64 (.finite .positive s (smallestExponent + k) hs)).toNat =
      min (k * hiddenBit + s) infinityBits := by
  have hlt := h.lt
  have hhidden := h.hidden
  have hbias :
      (smallestExponent + k + Format.binary64.exponentBias + (52 : Nat)).toNat = k + 1 := by
    have hvalue : (Format.binary64.exponentBias : Int) = 1023 := rfl
    rw [hvalue, smallestExponent]
    omega
  simp only [UnpackedFloat.pack, hbias]
  split
  case isTrue hlarge =>
    have hk : 2046 ≤ k := by omega
    have hinfinity : (packedInfinity .binary64 .positive).toNat = infinityBits := rfl
    rw [hinfinity, min_eq_right]
    norm_num [infinityBits, hiddenBit] at hhidden ⊢
    omega
  case isFalse hsmall =>
    have hk : k < 2046 := by omega
    have hmin : min (k * hiddenBit + s) infinityBits = k * hiddenBit + s := by
      refine min_eq_left ?_
      norm_num [infinityBits, hiddenBit] at hlt ⊢
      omega
    rw [hmin]
    have hbits : s.log2 + 1 = Format.binary64.mantissaBits ↔ hiddenBit ≤ s := by
      have hlow : 52 ≤ s.log2 ↔ hiddenBit ≤ s := Nat.le_log2 hs.ne'
      have hhigh : s.log2 < 53 := (Nat.log2_lt hs.ne').2 hlt
      have hlength : Format.binary64.mantissaBits = 53 := rfl
      omega
    split
    case isTrue hnormal =>
      have hnormal := hbits.1 hnormal
      rw [toNat_packComponents, Nat.mod_eq_of_lt (by omega), Nat.mod_eq_sub_mod hnormal,
        Nat.mod_eq_of_lt (by omega), Nat.succ_mul]
      omega
    case isFalse hsubnormal =>
      have hs : s < hiddenBit := Nat.not_le.1 (mt hbits.2 hsubnormal)
      obtain rfl := hhidden.resolve_right (Nat.not_le.2 hs)
      refine (toNat_packComponents 0 s).trans ?_
      rw [Nat.mod_eq_of_lt hs]
      rfl

end Packing

section Rounded

theorem targetExponent_eq (m : Nat) (e : Int) :
    Format.binary64.targetExponent (totalExponent m e) =
      max (m.log2 + e - 52) smallestExponent := by
  have hminimum : Format.binary64.minExponent = smallestExponent := rfl
  have hlength : (Format.binary64.mantissaBits : Int) = 53 := rfl
  rw [Format.targetExponent, totalExponent, hminimum, hlength]
  congr 1
  omega

/-- A significand that has run over gets the next power of two; the pattern is the same. -/
theorem exists_splits_shift (hs : s ≤ 2 * hiddenBit) (hhidden : k = 0 ∨ hiddenBit ≤ s) :
    let shifted := shiftToTargetExponent .binary64 s (smallestExponent + k) .exact
    ∃ j t, Splits j t ∧ j * hiddenBit + t = k * hiddenBit + s ∧ shifted.1.mantissa = t ∧
      shifted.2 = smallestExponent + j := by
  intro shifted
  have hshift : shifted = shiftToExponent s (smallestExponent + k) .exact
      (max (s.log2 + (smallestExponent + k) - 52) smallestExponent) := by
    rw [← targetExponent_eq]
    rfl
  rw [hshift, shiftToExponent]
  rcases Nat.lt_or_eq_of_le hs with hlt | rfl
  · have hlog : s.log2 ≤ 52 := by
      rcases Nat.eq_zero_or_pos s with rfl | hpos
      · decide
      · exact Nat.le_of_lt_succ ((Nat.log2_lt hpos.ne').2 hlt)
    have hamount : (max (s.log2 + (smallestExponent + k) - 52) smallestExponent -
        (smallestExponent + k)).toNat = 0 := by omega
    rw [hamount]
    exact ⟨k, s, ⟨hlt, hhidden⟩, rfl, rfl, Int.add_zero _⟩
  · have hlog : (2 * hiddenBit).log2 = 53 := by decide
    have hamount : (max ((2 * hiddenBit).log2 + (smallestExponent + k) - 52) smallestExponent -
        (smallestExponent + k)).toNat = 1 := by
      rw [hlog]
      omega
    rw [hamount]
    exact ⟨k + 1, hiddenBit, ⟨by decide, .inr le_rfl⟩, by ring, rfl, Int.add_assoc _ _ _⟩

theorem toNat_pack_roundWithAccuracy (hm : m ≠ 0)
    (hk : Format.binary64.targetExponent (totalExponent m e) = smallestExponent + k)
    (hn : smallestExponent + k - e = n) :
    roundDiv m (2 ^ n) ≤ 2 * hiddenBit ∧ (k = 0 ∨ hiddenBit * 2 ^ n ≤ m) ∧
      (UnpackedFloat.pack .binary64 (roundWithAccuracy .binary64 .positive m e .exact)).toNat =
        min (k * hiddenBit + roundDiv m (2 ^ n)) infinityBits := by
  have hlog := targetExponent_eq m e
  have hpower := Nat.two_pow_pos n
  rw [hk] at hlog
  have hhigh : m ≤ 2 * hiddenBit * 2 ^ n := by
    have hlt : m < 2 ^ (53 + n) := (Nat.log2_lt hm).1 (by omega)
    rw [pow_add] at hlt
    exact hlt.le
  have hlow : k = 0 ∨ hiddenBit * 2 ^ n ≤ m := by
    rcases Nat.eq_zero_or_pos k with rfl | hpos
    · exact .inl rfl
    · rw [hiddenBit_eq, ← pow_add]
      exact .inr ((Nat.le_log2 hm).1 (by omega))
  have hs : roundDiv m (2 ^ n) ≤ 2 * hiddenBit := roundDiv_le hpower hhigh
  refine ⟨hs, hlow, ?_⟩
  obtain ⟨j, t, hsplits, hpattern, hmantissa, hexponent⟩ :=
    exists_splits_shift hs (hlow.imp_right (le_roundDiv hpower))
  have hround : roundWithAccuracy .binary64 .positive m e .exact =
      if h : t = 0 then .zero .positive
      else .finite .positive t (smallestExponent + j) (Nat.pos_of_ne_zero h) := by
    have hshift : shiftToTargetExponent .binary64 m e .exact =
        (ExtendedMantissa.ofMantissaAndAccuracy m .exact >>> n, smallestExponent + k) := by
      rw [shiftToTargetExponent]
      simp only [hk]
      rw [shiftToExponent, hn, Int.toNat_natCast, ← hn, add_sub_cancel]
    simp only [roundWithAccuracy, hshift, roundedMantissa_shiftRight, hmantissa, hexponent]
  rw [hround, ← hpattern]
  split
  case isTrue hzero =>
    have hj : j = 0 := hsplits.hidden.resolve_right (by rw [hzero]; decide)
    rw [hzero, hj]
    rfl
  case isFalse hzero => exact toNat_pack_splits hsplits (Nat.pos_of_ne_zero hzero)

/-- A mantissa that is not too coarse is rounded to the pattern of its value. -/
theorem roundWithAccuracy_rounds (hm : m ≠ 0)
    (he : e ≤ Format.binary64.targetExponent (totalExponent m e)) (h : RoundsTo (m * 2 ^ e) bits) :
    (UnpackedFloat.pack .binary64 (roundWithAccuracy .binary64 .positive m e .exact)).toNat =
      min bits infinityBits := by
  have hsmallest : smallestExponent ≤ Format.binary64.targetExponent (totalExponent m e) :=
    targetExponent_eq m e ▸ le_max_right _ _
  obtain ⟨k, hk⟩ := Int.eq_ofNat_of_zero_le (sub_nonneg.2 hsmallest)
  obtain ⟨n, hn⟩ := Int.eq_ofNat_of_zero_le (sub_nonneg.2 he)
  have hk : Format.binary64.targetExponent (totalExponent m e) = smallestExponent + k := by omega
  rw [hk] at hn
  obtain ⟨hs, hlow, hpack⟩ := toNat_pack_roundWithAccuracy hm hk hn
  have hpower : 0 < 2 ^ n := Nat.two_pow_pos n
  have hpos : (0 : ℚ) < 2 ^ k := by positivity
  have hunits : inUnits ((m : ℚ) * 2 ^ e) = m / (2 ^ n : Nat) * 2 ^ k := by
    have he : e = smallestExponent + k - n := by omega
    rw [inUnits, he, zpow_sub₀ two_ne_zero, zpow_add₀ two_ne_zero, zpow_natCast, zpow_natCast]
    push_cast
    field_simp
  have hrounds : RoundsTo ((m : ℚ) * 2 ^ e) (k * hiddenBit + roundDiv m (2 ^ n)) := by
    refine roundsTo_of_significand ?_ hs (hlow.imp_right (le_roundDiv hpower)) ?_ ?_
    · rw [hunits]
      positivity
    · rw [hunits, mul_div_assoc, div_self hpos.ne', mul_one]
      exact halfEven_roundDiv m hpower
    · refine hlow.imp_right fun hlow => ?_
      rw [hunits, mul_le_mul_iff_of_pos_right hpos, le_div_iff₀ (by exact_mod_cast hpower)]
      exact_mod_cast hlow
  rw [hpack, hrounds.unique h]

theorem shiftLeft_pos (hm : 0 < m) (n : Nat) : 0 < m <<< n := by
  rw [Nat.shiftLeft_eq]
  exact Nat.mul_pos hm (Nat.two_pow_pos n)

theorem log2_shiftLeft (hm : m ≠ 0) (n : Nat) : (m <<< n).log2 = m.log2 + n := by
  have hpower := Nat.two_pow_pos n
  rw [Nat.shiftLeft_eq, Nat.log2_eq_iff (mul_ne_zero hm hpower.ne'), Nat.add_right_comm, pow_add,
    pow_add]
  exact ⟨Nat.mul_le_mul_right _ (Nat.log2_self_le hm),
    Nat.mul_lt_mul_of_pos_right Nat.lt_log2_self hpower⟩

/-- A mantissa is rounded to the pattern of its value. -/
theorem round_rounds (hm : m ≠ 0) (h : RoundsTo (m * 2 ^ e) bits) :
    (UnpackedFloat.pack .binary64 (round .binary64 .positive m e)).toNat =
      min bits infinityBits := by
  let a := (e - Format.binary64.targetExponent (totalExponent m e)).toNat
  have hvalue : ((m <<< a : Nat) : ℚ) * 2 ^ (e - a) = m * 2 ^ e := by
    rw [Nat.shiftLeft_eq, zpow_sub₀ two_ne_zero, zpow_natCast]
    push_cast
    field_simp
  have htotal : totalExponent (m <<< a) (e - a) = totalExponent m e := by
    rw [totalExponent, totalExponent, log2_shiftLeft hm]
    push_cast
    ring
  refine roundWithAccuracy_rounds (m := m <<< a) (e := e - a) ?_ ?_ (hvalue ▸ h)
  · exact (shiftLeft_pos (Nat.pos_of_ne_zero hm) a).ne'
  · rw [htotal]
    omega

end Rounded

section Operations

theorem toNat_unpackMantissa (b : UInt64) :
    (@unpackMantissa .binary64 b.toBitVec).toNat = b.toNat % hiddenBit := by
  rw [unpackMantissa_def, BitVec.extractLsb'_toNat, Nat.shiftRight_zero]
  rfl

theorem toNat_unpackExponent {b : UInt64} (h : b.toNat < infinityBits) :
    (@unpackExponent .binary64 b.toBitVec).toNat = b.toNat / hiddenBit := by
  have hpos : 0 < hiddenBit := by decide
  rw [unpackExponent_def, BitVec.extractLsb'_toNat, Nat.shiftRight_eq_div_pow]
  simp only [UInt64.toNat_toBitVec]
  exact Nat.mod_eq_of_lt ((Nat.div_lt_iff_lt_mul hpos).2 (h.trans (by decide)))

/-- The mantissa that is unpacked is the significand, the exponent is that of the pattern. -/
theorem unpack_eq (hx : Unsigned x) (hfinite : isFinite x = true) :
    x.toModel.unpack =
      if h : (parts x).significand = 0 then .zero .positive
      else .finite .positive (parts x).significand (parts x).exponent (Nat.pos_of_ne_zero h) := by
  have hlt : x.toBits.toNat < signBit := Nat.not_le.1 (of_decide_eq_false hx.isNegative)
  have hbits : magnitudeBits x = x.toBits.toNat := Nat.mod_eq_of_lt hlt
  have hfinite : x.toBits.toNat < infinityBits := hbits ▸ of_decide_eq_true hfinite
  have hpos : 0 < hiddenBit := by decide
  have hmantissa := toNat_unpackMantissa x.toBits
  have hexponent := toNat_unpackExponent hfinite
  have hsign : Sign.ofBitVec (@unpackSign .binary64 x.toBits.toBitVec) = .positive := by
    rw [(unsigned_iff.1 hx).1]
    rfl
  have hbias : ((Format.binary64.exponentBias : Nat) : Int) + (52 : Nat) =
      1 - smallestExponent := rfl
  have hunpack : x.toModel.unpack = UnpackedFloat.unpack .binary64 x.toBits.toBitVec := rfl
  rw [hunpack]
  simp only [UnpackedFloat.unpack, hsign, hbias, parts, hbits]
  split
  case isTrue hones =>
    have hones := congrArg BitVec.toNat hones
    rw [hexponent, BitVec.neg_one_eq_allOnes, BitVec.toNat_allOnes] at hones
    have hlarge : 2047 ≤ x.toBits.toNat / hiddenBit := hones.ge
    rw [Nat.le_div_iff_mul_le hpos] at hlarge
    exact absurd hfinite (Nat.not_lt.2 hlarge)
  case isFalse =>
  split
  case isTrue hzero =>
    have hzero : x.toBits.toNat / hiddenBit = 0 :=
      hexponent.symm.trans (congrArg BitVec.toNat hzero)
    have hparts : partsOfBits x.toBits.toNat = ⟨x.toBits.toNat % hiddenBit, smallestExponent⟩ :=
      if_pos hzero
    have hnone : @unpackMantissa .binary64 x.toBits.toBitVec = 0#52 ↔
        x.toBits.toNat % hiddenBit = 0 := by
      rw [← BitVec.toNat_inj, hmantissa]
      rfl
    simp only [hparts, hnone, hmantissa, hexponent, hzero]
    split
    · rfl
    · congr 1
  case isFalse hnormal =>
    have hfield : x.toBits.toNat / hiddenBit ≠ 0 := fun hzero =>
      hnormal (BitVec.eq_of_toNat_eq (hexponent.trans hzero))
    have hparts : partsOfBits x.toBits.toNat = ⟨hiddenBit + x.toBits.toNat % hiddenBit,
        smallestExponent + (x.toBits.toNat / hiddenBit - 1 : Nat)⟩ := if_neg hfield
    have hsignificand : (1#1 ++ @unpackMantissa .binary64 x.toBits.toBitVec).toNat =
        hiddenBit + x.toBits.toNat % hiddenBit := by
      have hmod : x.toBits.toNat % hiddenBit < 2 ^ 52 := Nat.mod_lt _ hpos
      rw [BitVec.toNat_append, hmantissa]
      exact (Nat.shiftLeft_add_eq_or_of_lt hmod 1).symm
    have he : ((x.toBits.toNat / hiddenBit : Nat) : Int) - (1 - smallestExponent) =
        smallestExponent + (x.toBits.toNat / hiddenBit - 1 : Nat) := by omega
    simp only [hparts, hsignificand, hexponent, he]
    rw [dif_neg (by omega)]

theorem exact_unsigned (hx : Unsigned x) :
    exact x = (parts x).significand * 2 ^ (parts x).exponent := by
  rw [exact, hx.isNegative, if_neg Bool.false_ne_true, one_mul]

theorem hidden_or_smallest (x : Float) :
    hiddenBit ≤ (parts x).significand ∨ (parts x).exponent = smallestExponent := by
  obtain ⟨k, s, h, hbits⟩ := exists_splits (magnitudeBits x)
  rw [parts, hbits, partsOfBits_splits h]
  rcases h.hidden with rfl | hhidden
  · exact .inr (Int.add_zero _)
  · exact .inl hhidden

/-- What is packed without a sign is the double with its pattern. -/
theorem eq_ofMagnitude {u : UnpackedFloat} (hu : IsUnsigned u)
    (h : (UnpackedFloat.pack .binary64 u).toNat = min bits infinityBits) :
    (⟨Float.Model.pack u⟩ : Float) = ofMagnitude false (min bits infinityBits) := by
  have hle : min bits infinityBits ≤ infinityBits := min_le_right _ _
  have hpack : (⟨Float.Model.pack u⟩ : Float).toBits.toNat = min bits infinityBits := h
  refine eq_of_magnitudeBits ((unsigned_pack hu).isNegative.trans
    (isNegative_ofMagnitude hle).symm) ?_
  rw [magnitudeBits_ofMagnitude hle, magnitudeBits, hpack]
  exact Nat.mod_eq_of_lt (hle.trans_lt (by decide))

theorem zero_rounds (h : RoundsTo 0 bits) :
    (⟨Float.Model.pack (.zero .positive)⟩ : Float) = ofMagnitude false (min bits infinityBits) := by
  refine eq_ofMagnitude rfl ?_
  rw [h.unique roundsTo_zero]
  rfl

theorem unpack_rounds (hx : Unsigned x) (h : RoundsTo (exact x) bits) :
    (⟨Float.Model.pack x.toModel.unpack⟩ : Float) = ofMagnitude false (min bits infinityBits) := by
  have hbits : bits = magnitudeBits x := by
    rw [exact_eq, hx.isNegative, if_neg Bool.false_ne_true, one_mul] at h
    exact h.unique (roundsTo_magnitude _)
  have hle : magnitudeBits x ≤ infinityBits := Nat.not_lt.1 (of_decide_eq_false hx.isNaN)
  have hpack : (⟨Float.Model.pack x.toModel.unpack⟩ : Float) = x :=
    Float.toBits_inj.1 (toBits_ofBits hle)
  rw [hpack, hbits, min_eq_left hle]
  exact eq_of_magnitudeBits (hx.isNegative.trans (isNegative_ofMagnitude hle).symm)
    (magnitudeBits_ofMagnitude hle).symm

theorem add_finite {f : Int} (hm : 0 < m) (hn : 0 < n) :
    UnpackedFloat.add .binary64 (.finite .positive m e hm) (.finite .positive n f hn) =
      round .binary64 .positive (m <<< (e - min e f).toNat + n <<< (f - min e f).toNat)
        (min e f) := by
  have hsum := Nat.add_pos_left (shiftLeft_pos hm (e - min e f).toNat) (n <<< (f - min e f).toNat)
  rw [UnpackedFloat.add]
  simp only [decreaseExponent, Sign.apply, UnpackedFloat.normalize]
  rw [← Int.natCast_add, Int.compare_eq_gt.2 (Int.natCast_pos.2 hsum)]
  rfl

theorem isUnsigned_round (m : Nat) (e : Int) : IsUnsigned (round .binary64 .positive m e) :=
  isUnsigned_roundWithAccuracy _ _ _

variable (hx : Unsigned x) (hy : Unsigned y) (hfx : isFinite x = true) (hfy : isFinite y = true)
include hx hy hfx hfy

theorem mul_rounds (h : RoundsTo (exact x * exact y) bits) :
    x * y = ofMagnitude false (min bits infinityBits) := by
  change (⟨Float.Model.pack (UnpackedFloat.mul .binary64 x.toModel.unpack y.toModel.unpack)⟩ :
    Float) = _
  rw [exact_unsigned hx, exact_unsigned hy] at h
  rw [unpack_eq hx hfx, unpack_eq hy hfy]
  have hhidden := hidden_or_smallest x
  have hhidden' := hidden_or_smallest y
  generalize parts x = p at h hhidden ⊢
  generalize parts y = q at h hhidden' ⊢
  obtain ⟨m, e⟩ := p
  obtain ⟨n, f⟩ := q
  dsimp only at h hhidden hhidden' ⊢
  by_cases hm : m = 0
  · subst hm
    rw [Nat.cast_zero, zero_mul, zero_mul] at h
    rw [dif_pos rfl]
    split <;> exact zero_rounds h
  by_cases hn : n = 0
  · subst hn
    rw [Nat.cast_zero, zero_mul, mul_zero] at h
    rw [dif_neg hm, dif_pos rfl]
    exact zero_rounds h
  have hmn : m * n ≠ 0 := mul_ne_zero hm hn
  rw [dif_neg hm, dif_neg hn]
  refine eq_ofMagnitude (isUnsigned_roundWithAccuracy _ _ _)
    (roundWithAccuracy_rounds hmn ?_ ?_)
  · rw [targetExponent_eq]
    have hlog (hlarge : hiddenBit ≤ m * n) : 52 ≤ (m * n).log2 := (Nat.le_log2 hmn).2 hlarge
    rcases hhidden with hhidden | rfl
    · have hlog := hlog (hhidden.trans (Nat.le_mul_of_pos_right m (Nat.pos_of_ne_zero hn)))
      omega
    · rcases hhidden' with hhidden | rfl
      · have hlog := hlog (hhidden.trans (Nat.le_mul_of_pos_left n (Nat.pos_of_ne_zero hm)))
        omega
      · exact le_max_of_le_right (by decide)
  · rw [Nat.cast_mul, zpow_add₀ two_ne_zero, mul_mul_mul_comm]
    exact h

theorem add_rounds (h : RoundsTo (exact x + exact y) bits) :
    x + y = ofMagnitude false (min bits infinityBits) := by
  change (⟨Float.Model.pack (UnpackedFloat.add .binary64 x.toModel.unpack y.toModel.unpack)⟩ :
    Float) = _
  have hunpack := unpack_eq hx hfx
  have hunpack' := unpack_eq hy hfy
  have hexact := exact_unsigned hx
  have hexact' := exact_unsigned hy
  by_cases hm : (parts x).significand = 0
  · rw [hm, Nat.cast_zero, zero_mul] at hexact
    rw [hexact, zero_add] at h
    rw [hunpack, dif_pos hm, ← unpack_rounds hy h, hunpack']
    split <;> rfl
  by_cases hn : (parts y).significand = 0
  · rw [hn, Nat.cast_zero, zero_mul] at hexact'
    rw [hexact', add_zero] at h
    rw [hunpack', dif_pos hn, ← unpack_rounds hx h, hunpack, dif_neg hm]
    rfl
  rw [hexact, hexact'] at h
  rw [hunpack, hunpack', dif_neg hm, dif_neg hn]
  generalize parts x = p at h hm ⊢
  generalize parts y = q at h hn ⊢
  obtain ⟨m, e⟩ := p
  obtain ⟨n, f⟩ := q
  dsimp only at h hm hn ⊢
  rw [add_finite]
  refine eq_ofMagnitude (isUnsigned_round _ _) (round_rounds ?_ ?_)
  · exact (Nat.add_pos_left (shiftLeft_pos (Nat.pos_of_ne_zero hm) _) _).ne'
  · have hscale (m : Nat) {e g : Int} (h : g ≤ e) :
        ((m <<< (e - g).toNat : Nat) : ℚ) * 2 ^ g = m * 2 ^ e := by
      rw [Nat.shiftLeft_eq, Nat.cast_mul, Nat.cast_pow, Nat.cast_two, mul_assoc, ← zpow_natCast,
        ← zpow_add₀ two_ne_zero, Int.toNat_of_nonneg (sub_nonneg.2 h), sub_add_cancel]
    rw [Nat.cast_add, add_mul, hscale m (min_le_left e f), hscale n (min_le_right e f)]
    exact h

end Operations

end ExprLang.Binary64
