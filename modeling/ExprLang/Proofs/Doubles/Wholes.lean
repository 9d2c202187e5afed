import ExprLang.Proofs.Doubles.Accumulation
import ExprLang.Proofs.Lexing.WrittenNumbers

/-!
Texts of whole numbers. Below 2^53 a number is written as the decimal digits of an integer exactly
if that integer is its value: no shorter decimal but the integer itself lies near enough.
-/
namespace ExprLang

open Binary64

/-- Up to this bound every integer is a double. -/
def wholeBound : Nat := 2 ^ 53

theorem wholeBound_eq : wholeBound = 2 * hiddenBit := rfl

/-- Zeros at the end multiply by a power of ten. -/
theorem toDigits_mul_pow {n : Nat} (hn : 0 < n) (k : Nat) :
    Nat.toDigits 10 (n * 10 ^ k) = Nat.toDigits 10 n ++ List.replicate k '0' := by
  induction k with
  | zero => rw [pow_zero, Nat.mul_one, List.replicate_zero, List.append_nil]
  | succ k ih =>
    have hpos : 0 < n * 10 ^ k := Nat.mul_pos hn (Nat.pow_pos (by omega))
    have hdiv : n * 10 ^ (k + 1) / 10 = n * 10 ^ k := by
      rw [pow_succ, ← Nat.mul_assoc, Nat.mul_div_cancel _ (by omega)]
    have hmod : n * 10 ^ (k + 1) % 10 = 0 := by
      rw [pow_succ, ← Nat.mul_assoc, Nat.mul_mod_left]
    have hle : 10 ≤ n * 10 ^ (k + 1) := by
      rw [pow_succ, ← Nat.mul_assoc]
      omega
    rw [Nat.toDigits_of_base_le (by omega) hle, hdiv, hmod, ih, List.append_assoc,
      List.replicate_succ']
    rfl

namespace Binary64

variable {x : Float} {bits m n : Nat}

theorem exists_whole (hn : n < wholeBound) :
    ∃ bits < infinityBits, (magnitude bits * 2 ^ smallestExponent : ℚ) = n := by
  obtain ⟨bits, hbits, hmagnitude⟩ := exists_magnitude (e := 0) (wholeBound_eq ▸ hn) (Nat.zero_le 4)
  exact ⟨bits, hbits, hmagnitude.trans (by rw [pow_zero, mul_one])⟩

/-- The only integer that rounds to one below the bound is that one. -/
theorem eq_of_roundsTo (hn : n < wholeBound)
    (hmagnitude : (magnitude bits * 2 ^ smallestExponent : ℚ) = n) (h : RoundsTo m bits) :
    m = n := by
  have hunit : (0 : ℚ) < 2 ^ smallestExponent := by positivity
  rcases Nat.lt_or_ge m wholeBound with hm | hm
  · obtain ⟨bits', -, hmagnitude'⟩ := exists_whole hm
    obtain rfl : bits = bits' := h.unique (hmagnitude' ▸ roundsTo_magnitude bits')
    exact_mod_cast hmagnitude'.symm.trans hmagnitude
  · -- The half-way point to the next double lies below the bound.
    exfalso
    obtain ⟨top, -, htop⟩ := exists_magnitude (n := hiddenBit) (e := 1) (by decide) (by decide)
    have hbound : (magnitude top * 2 ^ smallestExponent : ℚ) = wholeBound := by
      rw [htop, wholeBound_eq]
      push_cast
      ring
    have hlt : magnitude bits < magnitude top := by
      have hlt : (magnitude bits * 2 ^ smallestExponent : ℚ) <
          magnitude top * 2 ^ smallestExponent := by
        rw [hmagnitude, hbound]
        exact_mod_cast hn
      exact_mod_cast (mul_lt_mul_iff_of_pos_right hunit).1 hlt
    have hnext : magnitude (bits + 1) ≤ magnitude top :=
      magnitude_strictMono.monotone (magnitude_strictMono.lt_iff_lt.1 hlt)
    have habove := h.above
    have hunits : inUnits m * 2 ^ smallestExponent = m := by
      rw [inUnits, div_mul_cancel₀ _ hunit.ne']
    have hsum : (2 * inUnits m : ℚ) < magnitude top + magnitude top := by
      refine habove.trans_lt ?_
      exact_mod_cast Nat.add_lt_add_of_lt_of_le hlt hnext
    have hscaled := mul_lt_mul_of_pos_right hsum hunit
    rw [mul_assoc, hunits, add_mul, hbound, ← two_mul] at hscaled
    have hlt : (m : ℚ) < wholeBound := by linarith
    exact absurd hm (Nat.not_le.2 (by exact_mod_cast hlt))

theorem exact_of_isZero (hzero : isZero x = true) : exact x = 0 := by
  rw [exact_eq, beq_iff_eq.1 hzero, magnitude_zero, Nat.cast_zero, zero_mul, mul_zero]

/-- A value that is an integer is not below zero, whatever the sign of a zero. -/
theorem magnitude_of_exact (h : exact x = n) (hzero : isZero x = false) :
    isNegative x = false ∧ (magnitude (magnitudeBits x) * 2 ^ smallestExponent : ℚ) = n := by
  rw [exact_eq] at h
  cases hnegative : isNegative x with
  | false => exact ⟨rfl, by rwa [hnegative, if_neg Bool.false_ne_true, one_mul] at h⟩
  | true =>
    exfalso
    have hnonneg : (0 : ℚ) ≤ magnitude (magnitudeBits x) * 2 ^ smallestExponent := by positivity
    rw [hnegative, if_pos rfl, neg_one_mul] at h
    have hnone : (magnitude (magnitudeBits x) * 2 ^ smallestExponent : ℚ) = 0 := by
      have hn : (0 : ℚ) ≤ n := Nat.cast_nonneg n
      linarith
    rw [isZero, eq_zero_of_mul_unit hnone] at hzero
    cases hzero

end Binary64

namespace Shortest

variable {x : Float} {n : Nat}

/-- The grid of integers is not passed over, so that the decimal that is found is an integer. -/
theorem exists_whole_digits (tie : Tie) (hn : n < wholeBound) (hexact : exact x = n)
    (hzero : isZero x = false) : ∃ s k : Nat,
      digits tie x = Decimal.digits ⟨s, k⟩ ∧ 0 < s ∧ s * 10 ^ k = n := by
  obtain ⟨-, hmagnitude⟩ := magnitude_of_exact hexact hzero
  have hbits : magnitudeBits x ≠ 0 := fun hbits => by simp [isZero, hbits] at hzero
  have hpos : 0 < n := by
    refine Nat.pos_of_ne_zero fun hnone => hbits (eq_zero_of_mul_unit ?_)
    rw [hmagnitude, hnone, Nat.cast_zero]
  have hrounds : RoundsTo n (magnitudeBits x) := hmagnitude ▸ roundsTo_magnitude _
  have hproper : (interval (parts x)).Proper := proper_interval hbits
  obtain ⟨d, hdigits, hd⟩ := exists_search tie hbits
  have hexponent : 0 ≤ d.exponent := by
    have hmiddle : (interval (parts x)).middle = n :=
      (interval_eq hbits).2.1.trans hmagnitude
    have hlt := lt_ten_zpow_leadingExponent hproper.num_ne_zero hproper.den_pos.ne'
    have htop : 0 ≤ leadingExponent (interval (parts x)).num (interval (parts x)).den := by
      by_contra hneg
      have hone : (10 : ℚ) ^ (leadingExponent (interval (parts x)).num
          (interval (parts x)).den + 1) ≤ 1 :=
        zpow_le_one_of_nonpos₀ (by norm_num) (by omega)
      have hle : (1 : ℚ) ≤ n := by exact_mod_cast hpos
      rw [← hmiddle] at hle
      exact absurd (hle.trans_lt hlt) (not_lt.2 hone)
    by_contra hneg
    have hsome : (onGrid? tie (interval (parts x)) 0).isSome := by
      refine isSome_onGrid?_of_has hproper hpos ?_
      rw [zpow_zero, mul_one]
      exact (has_iff_roundsTo hbits).2 hrounds
    rw [(search_passes hd).2.2 0 (Int.not_le.1 hneg) htop] at hsome
    cases hsome
  obtain ⟨k, hk⟩ := Int.eq_ofNat_of_zero_le hexponent
  have hvalue : RoundsTo (d.significand * 10 ^ k : Nat) (magnitudeBits x) := by
    have hfound := (has_iff_roundsTo hbits).1 (search_has hproper.den_pos hd)
    rw [Decimal.value, hk, zpow_natCast] at hfound
    exact_mod_cast hfound
  refine ⟨d.significand, k, ?_, search_pos hd, eq_of_roundsTo hn hmagnitude hvalue⟩
  rw [hdigits, ← hk]

/-- The digits of an integer with the zeros at its end. -/
theorem digits_append_zeros {s : Nat} (hs : 0 < s) (k : Nat) :
    let d := Decimal.digits ⟨s, k⟩
    d.point = (Nat.toDigits 10 (s * 10 ^ k)).length ∧ (d.digits.length : Int) ≤ d.point ∧
      d.digits ++ List.replicate (d.point.toNat - d.digits.length) '0' =
        Nat.toDigits 10 (s * 10 ^ k) := by
  intro d
  obtain ⟨j, hj⟩ := exists_append_zeros (Nat.toDigits 10 s)
  have hdigits : d.digits = (Nat.toDigits 10 s).rdropWhile (· = '0') := rfl
  have hpoint : d.point = k + (Nat.toDigits 10 s).length := rfl
  have hlength := congrArg List.length hj
  rw [← hdigits] at hj hlength
  rw [List.length_append, List.length_replicate] at hlength
  have hzeros : d.point.toNat - d.digits.length = j + k := by omega
  refine ⟨?_, by omega, ?_⟩
  · rw [toDigits_mul_pow hs, List.length_append, List.length_replicate]
    omega
  · rw [hzeros, toDigits_mul_pow hs, hj, List.append_assoc, List.replicate_append_replicate]

end Shortest

namespace NumberFormat

variable {x : Float} {n : Nat}

/-- An integer below the bound is written as its decimal digits. -/
theorem value_write_whole (hfinite : isFinite x = true) (hn : n < wholeBound)
    (hexact : exact x = n) : value.write x = toString n := by
  rw [Nat.toString_eq_ofList_toDigits, ← String.toList_inj, String.toList_ofList]
  cases hzero : isZero x with
  | true =>
    rw [exact_of_isZero hzero] at hexact
    obtain rfl : n = 0 := by exact_mod_cast hexact.symm
    rw [write, isNaN_of_isFinite hfinite, hfinite, hzero]
    simp only [Bool.false_eq_true, Bool.not_true, if_false, if_true]
    split <;> rfl
  | false =>
    obtain ⟨hnegative, -⟩ := magnitude_of_exact hexact hzero
    obtain ⟨s, k, hdigits, hs, rfl⟩ := Shortest.exists_whole_digits value.tie hn hexact hzero
    obtain ⟨hpoint, hlong, htext⟩ := Shortest.digits_append_zeros hs k
    have hshort : (Nat.toDigits 10 (s * 10 ^ k)).length ≤ 21 :=
      (Nat.length_toDigits_le_iff (by omega) (by omega)).2 (hn.trans (by decide))
    have hpositional : value.isPositional (Shortest.Decimal.digits ⟨s, k⟩).point = true :=
      (isPositional_value _).2 (by omega)
    rw [write_eq value hfinite hzero, hnegative, hdigits, unsigned, if_pos hpositional,
      positional, if_pos hlong, htext]
    exact List.append_nil _

/-- The text of an integer below the bound is written for no other number. -/
theorem value_write_eq_toString_iff (hfinite : isFinite x = true) (hn : n < wholeBound) :
    value.write x = toString n ↔ exact x = n := by
  refine ⟨fun h => ?_, value_write_whole hfinite hn⟩
  cases hzero : isZero x with
  | true =>
    have hnone : exact x = (0 : Nat) := (exact_of_isZero hzero).trans Nat.cast_zero.symm
    rw [value_write_whole hfinite (by decide) hnone] at h
    rw [hnone, Nat.repr_inj.1 h]
  | false =>
    cases hnegative : isNegative x with
    | true =>
      -- The sign is no digit.
      have hminus : '-' ∈ (value.write x).toList := by
        rw [write_eq value hfinite hzero, hnegative]
        exact List.mem_cons_self
      rw [h] at hminus
      exact absurd (isDigit_of_mem_toString hminus) (by decide)
    | false =>
      have hwhole : isFinite (ofNat n) = true ∧ exact (ofNat n) = n := by
        have hexact := exact_ofNat (e := 0) (wholeBound_eq ▸ hn) (Nat.zero_le 4)
        rwa [pow_zero, Nat.mul_one, pow_zero, mul_one] at hexact
      have hx : x = ofNat n :=
        value_write_injective hfinite hwhole.1 ⟨hnegative, isNaN_of_isFinite hfinite⟩
          (unsigned_ofRatio n 1) (h.trans (value_write_whole hwhole.1 hn hwhole.2).symm)
      rw [hx, hwhole.2]

end NumberFormat

end ExprLang
