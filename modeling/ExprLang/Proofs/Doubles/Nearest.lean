import ExprLang.Proofs.Doubles.Intervals
import ExprLang.Proofs.Doubles.Patterns

/-!
The nearest double. A significand that is rounded half to even at a power of two, with its hidden
bit unless the power is the smallest one, makes the pattern to which the value rounds; so the double
of a fraction is the one in whose interval the fraction lies.
-/
namespace ExprLang.Binary64

variable {num den k s bits : Nat} {r : ℚ}

theorem inUnits_eq (r : ℚ) : inUnits r = r * 2 ^ 1074 := by
  have hflip : smallestExponent = -((1074 : Nat) : Int) := rfl
  rw [inUnits, hflip, zpow_neg, zpow_natCast, div_inv_eq_mul]

/-- The value lies within one half of the integer, and at one half the integer is even. -/
structure HalfEven (v : ℚ) (s : Nat) : Prop where
  below : (2 * s - 1 : ℚ) ≤ 2 * v
  above : 2 * v ≤ 2 * s + 1
  even : 2 * v = 2 * s - 1 ∨ 2 * v = 2 * s + 1 → s % 2 = 0

theorem halfEven_roundDiv (num : Nat) (hden : 0 < den) :
    HalfEven ((num : ℚ) / den) (roundDiv num den) := by
  have hpos : (0 : ℚ) < den := by exact_mod_cast hden
  have hdiv := Nat.div_add_mod num den
  have hmod := Nat.mod_lt num hden
  -- The same bounds without the division.
  obtain ⟨hbelow, habove, heven⟩ : 2 * den * roundDiv num den ≤ 2 * num + den ∧
      2 * num ≤ 2 * den * roundDiv num den + den ∧
      (2 * den * roundDiv num den = 2 * num + den ∨ 2 * num = 2 * den * roundDiv num den + den →
        roundDiv num den % 2 = 0) := by
    unfold roundDiv
    dsimp only
    generalize num / den = q at hdiv ⊢
    have hlow : 2 * den * q = 2 * (den * q) := Nat.mul_assoc _ _ _
    have hhigh : 2 * den * (q + 1) = 2 * (den * q) + 2 * den := by ring
    split_ifs <;> simp only [hlow, hhigh] <;> omega
  have hbelow : (2 * den * roundDiv num den : ℚ) ≤ 2 * num + den := by exact_mod_cast hbelow
  have habove : (2 * num : ℚ) ≤ 2 * den * roundDiv num den + den := by exact_mod_cast habove
  have hquotient : 2 * ((num : ℚ) / den) = 2 * num / den := (mul_div_assoc _ _ _).symm
  refine ⟨?_, ?_, ?_⟩
  · rw [hquotient, le_div_iff₀ hpos]
    linarith
  · rw [hquotient, div_le_iff₀ hpos]
    linarith
  · rw [hquotient, div_eq_iff hpos.ne', div_eq_iff hpos.ne']
    refine fun h => heven (h.imp (fun h => ?_) fun h => ?_)
    · have h : (2 * den * roundDiv num den : ℚ) = 2 * num + den := by linarith
      exact_mod_cast h
    · have h : (2 * num : ℚ) = 2 * den * roundDiv num den + den := by linarith
      exact_mod_cast h

theorem pattern_mod_two (k s : Nat) : (k * hiddenBit + s) % 2 = s % 2 := by
  rw [Nat.add_mod, Nat.mul_mod, show hiddenBit % 2 = 0 from rfl, Nat.mul_zero, Nat.zero_mod,
    Nat.zero_add, Nat.mod_mod]

section Neighbours

variable (hs : s ≤ 2 * hiddenBit) (hhidden : k = 0 ∨ hiddenBit ≤ s)
include hs hhidden

/-- The step to the next magnitude, which is longer behind a significand that has run over. -/
theorem magnitude_succ : magnitude (k * hiddenBit + s + 1) = (s + 1) * 2 ^ k ∨
    s = 2 * hiddenBit ∧ (s + 1) * 2 ^ k ≤ magnitude (k * hiddenBit + s + 1) := by
  rcases Nat.lt_or_eq_of_le hs with hlt | rfl
  · rw [Nat.add_assoc, magnitude_eq hlt (hhidden.imp_right (Nat.le_succ_of_le ·))]
    exact .inl rfl
  · have hnext : k * hiddenBit + 2 * hiddenBit + 1 = (k + 1) * hiddenBit + (hiddenBit + 1) := by
      ring
    have hpos : 0 < 2 ^ k := Nat.two_pow_pos k
    rw [hnext, magnitude_eq (by decide) (.inr (Nat.le_succ _)), pow_succ]
    exact .inr ⟨rfl, by nlinarith⟩

/-- The step from the previous magnitude, which is half as long below a power of two. -/
theorem magnitude_pred : k * hiddenBit + s = 0 ∨
    magnitude (k * hiddenBit + s - 1) + 2 ^ k = s * 2 ^ k ∨
    s = hiddenBit ∧ k ≠ 0 ∧ 2 * magnitude (k * hiddenBit + s - 1) + 2 ^ k = 2 * (s * 2 ^ k) := by
  by_cases hstep : s ≠ 0 ∧ (k = 0 ∨ hiddenBit < s)
  · obtain ⟨t, rfl⟩ := Nat.exists_eq_succ_of_ne_zero hstep.1
    rw [Nat.add_succ_sub_one,
      magnitude_eq (Nat.le_of_succ_le hs) (hstep.2.imp_right Nat.le_of_lt_succ)]
    exact .inr (.inl (Nat.succ_mul _ _).symm)
  · have hpos : 0 < hiddenBit := by decide
    rcases Nat.eq_zero_or_pos k with rfl | hk
    · exact .inl (by omega)
    · obtain rfl : s = hiddenBit := by omega
      obtain ⟨j, rfl⟩ := Nat.exists_eq_succ_of_ne_zero hk.ne'
      have hprevious : j.succ * hiddenBit + hiddenBit - 1 =
          j * hiddenBit + (2 * hiddenBit - 1) := by
        rw [Nat.succ_mul]
        omega
      have hlong : 2 ^ j ≤ hiddenBit * 2 ^ j := Nat.le_mul_of_pos_left _ hpos
      rw [hprevious, magnitude_eq (Nat.sub_le _ _) (.inr (by decide)), pow_succ, Nat.sub_mul,
        Nat.mul_assoc 2, ← Nat.mul_assoc hiddenBit]
      exact .inr (.inr ⟨rfl, hk.ne', by omega⟩)

end Neighbours

/-- A rounded significand makes the pattern to which the value rounds. -/
theorem roundsTo_of_significand (hr : 0 ≤ inUnits r) (hs : s ≤ 2 * hiddenBit)
    (hhidden : k = 0 ∨ hiddenBit ≤ s) (hround : HalfEven (inUnits r / 2 ^ k) s)
    (hge : k = 0 ∨ (hiddenBit : ℚ) * 2 ^ k ≤ inUnits r) : RoundsTo r (k * hiddenBit + s) := by
  have hpos : (0 : ℚ) < 2 ^ k := by positivity
  obtain ⟨hbelow, habove, heven⟩ := hround
  rw [← mul_div_assoc, le_div_iff₀ hpos] at hbelow
  rw [← mul_div_assoc, div_le_iff₀ hpos] at habove
  rw [← mul_div_assoc, div_eq_iff hpos.ne', div_eq_iff hpos.ne'] at heven
  have hmagnitude : (magnitude (k * hiddenBit + s) : ℚ) = s * 2 ^ k := by
    exact_mod_cast magnitude_eq hs hhidden
  have hsucc : (magnitude (k * hiddenBit + s + 1) : ℚ) = (s + 1) * 2 ^ k ∨
      s = 2 * hiddenBit ∧ ((s + 1) * 2 ^ k : ℚ) ≤ magnitude (k * hiddenBit + s + 1) := by
    exact_mod_cast magnitude_succ hs hhidden
  have hpred : k * hiddenBit + s = 0 ∨
      (magnitude (k * hiddenBit + s - 1) + 2 ^ k : ℚ) = s * 2 ^ k ∨
      s = hiddenBit ∧ k ≠ 0 ∧
        (2 * magnitude (k * hiddenBit + s - 1) + 2 ^ k : ℚ) = 2 * (s * 2 ^ k) := by
    exact_mod_cast magnitude_pred hs hhidden
  refine ⟨?_, ?_, ?_⟩
  · rcases hpred with hzero | hpred | ⟨rfl, hk, hpred⟩
    · rw [hzero, magnitude_zero, Nat.cast_zero, add_zero]
      linarith
    · rw [hmagnitude]
      linarith
    · rw [hmagnitude]
      have hge := hge.resolve_left hk
      linarith
  · rw [hmagnitude]
    rcases hsucc with hsucc | ⟨-, hsucc⟩ <;> linarith
  · rw [pattern_mod_two, hmagnitude]
    rintro (hlow | hhigh)
    · rcases hpred with hzero | hpred | ⟨rfl, hk, hpred⟩
      · rw [(Nat.add_eq_zero_iff.1 hzero).2]
      · exact heven (.inl (by linarith))
      · have hge := hge.resolve_left hk
        linarith
    · rcases hsucc with hsucc | ⟨rfl, -⟩
      · exact heven (.inr (by linarith))
      · rfl

/-- A magnitude rounds to its own pattern. -/
theorem roundsTo_magnitude (bits : Nat) :
    RoundsTo (magnitude bits * 2 ^ smallestExponent) bits := by
  have hpos : (0 : ℚ) < 2 ^ smallestExponent := by positivity
  have hunits : inUnits (magnitude bits * 2 ^ smallestExponent) = magnitude bits :=
    mul_div_cancel_right₀ _ hpos.ne'
  have hnext : magnitude bits < magnitude (bits + 1) := magnitude_strictMono (Nat.lt_succ_self _)
  have hprevious : magnitude (bits - 1) ≤ magnitude bits :=
    magnitude_strictMono.monotone (Nat.sub_le _ _)
  have hcast : (magnitude (bits - 1) : ℚ) ≤ magnitude bits := by exact_mod_cast hprevious
  have hcast' : (magnitude bits : ℚ) < magnitude (bits + 1) := by exact_mod_cast hnext
  refine ⟨?_, ?_, ?_⟩
  · rw [hunits]
    linarith
  · rw [hunits]
    linarith
  · rw [hunits]
    rintro (hlow | hhigh)
    · have hsame : magnitude (bits - 1) = magnitude bits := by
        have hsame : (magnitude (bits - 1) : ℚ) = magnitude bits := by linarith
        exact_mod_cast hsame
      have hbits := magnitude_strictMono.injective hsame
      omega
    · linarith

theorem exists_roundsTo (num : Nat) (hden : 0 < den) :
    ∃ bits, RoundsTo ((num : ℚ) / den) bits ∧ bitsOfRatio num den = min bits infinityBits := by
  rcases eq_or_ne num 0 with rfl | hnum
  · rw [Nat.cast_zero, zero_div, bitsOfRatio, if_pos rfl]
    exact ⟨0, roundsTo_zero, (Nat.zero_min _).symm⟩
  refine ⟨_, ?_, bitsOfRatio_eq hnum⟩
  obtain ⟨hsmallest, hlt, hge⟩ := exponentOfRatio_spec hnum hden
  obtain ⟨k, hk⟩ := Int.eq_ofNat_of_zero_le (sub_nonneg.2 hsmallest)
  generalize exponentOfRatio num den = q at hsmallest hlt hge hk ⊢
  rw [hk, Int.toNat_natCast]
  have hpos : (0 : ℚ) < 2 ^ smallestExponent := by positivity
  have hq : (2 : ℚ) ^ q = 2 ^ k * 2 ^ smallestExponent := by
    rw [← zpow_natCast, ← zpow_add₀ two_ne_zero]
    congr 1
    omega
  have hunits : inUnits ((num : ℚ) / den) / 2 ^ k = num / den / 2 ^ q := by
    rw [inUnits, hq, div_div, mul_comm]
  have hge' : k = 0 ∨ (hiddenBit : ℚ) * 2 ^ k ≤ inUnits ((num : ℚ) / den) := by
    refine hge.imp (fun h => by omega) fun h => ?_
    rwa [inUnits, le_div_iff₀ hpos, mul_assoc, ← hq]
  refine roundsTo_of_significand (by unfold inUnits; positivity) ?_ ?_ ?_ hge'
  · refine rounded_le hden ?_
    exact_mod_cast hlt.le
  · exact hge.imp (fun h => by omega) (le_rounded hden)
  · rw [hunits, ← shifted_div]
    exact halfEven_roundDiv _ (shifted_pos hden q)

theorem bitsOfRatio_of_roundsTo (hden : 0 < den) (h : RoundsTo ((num : ℚ) / den) bits) :
    bitsOfRatio num den = min bits infinityBits := by
  obtain ⟨bits', hrounds, hbits⟩ := exists_roundsTo num hden
  rw [hbits, hrounds.unique h]

theorem ofRatio_of_roundsTo (negative : Bool) (hden : 0 < den)
    (h : RoundsTo ((num : ℚ) / den) bits) :
    ofRatio negative num den = ofMagnitude negative (min bits infinityBits) := by
  rw [ofRatio, bitsOfRatio_of_roundsTo hden h]

end ExprLang.Binary64
