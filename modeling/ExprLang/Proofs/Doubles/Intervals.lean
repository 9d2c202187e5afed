import ExprLang.Number.Shortest
import ExprLang.Proofs.Doubles.Rounding

/-!
The interval of values that round to a double, and the search for a short decimal in it. A decimal
is always found, and no value lies in the intervals of two doubles.
-/
namespace ExprLang.Binary64

variable {r : ℚ} {bits bits' k s : Nat}

/-- The value lies between the half-way points to the neighbours, on one of them only if the
pattern is even. -/
structure RoundsTo (r : ℚ) (bits : Nat) : Prop where
  below : (magnitude (bits - 1) + magnitude bits : ℚ) ≤ 2 * inUnits r
  above : 2 * inUnits r ≤ magnitude bits + magnitude (bits + 1)
  even : 2 * inUnits r = magnitude (bits - 1) + magnitude bits ∨
    2 * inUnits r = magnitude bits + magnitude (bits + 1) → bits % 2 = 0

theorem RoundsTo.not_lt (h : RoundsTo r bits) (h' : RoundsTo r bits') : ¬bits < bits' := by
  intro hlt
  have hprevious := magnitude_strictMono.monotone (Nat.le_sub_one_of_lt hlt)
  have hnext := magnitude_strictMono.monotone (Nat.succ_le_of_lt hlt)
  rw [Nat.succ_eq_add_one] at hnext
  have hsum : (magnitude bits + magnitude (bits + 1) : ℚ) ≤
      magnitude (bits' - 1) + magnitude bits' := by
    exact_mod_cast Nat.add_le_add hprevious hnext
  -- The value lies on the half-way point between them, and they are neighbours.
  have hmiddle := le_antisymm h.above (hsum.trans h'.below)
  have hmiddle' := le_antisymm (h.above.trans hsum) h'.below
  have hsame : magnitude (bits + 1) = magnitude bits' := by
    have hequal : magnitude bits + magnitude (bits + 1) =
        magnitude (bits' - 1) + magnitude bits' := by
      exact_mod_cast hmiddle.symm.trans hmiddle'
    omega
  have hnext := magnitude_strictMono.injective hsame
  have heven := h.even (.inr hmiddle)
  have heven' := h'.even (.inl hmiddle')
  omega

theorem RoundsTo.unique (h : RoundsTo r bits) (h' : RoundsTo r bits') : bits = bits' :=
  le_antisymm (Nat.not_lt.1 (h'.not_lt h)) (Nat.not_lt.1 (h.not_lt h'))

theorem roundsTo_zero : RoundsTo 0 0 := by
  have hzero : inUnits 0 = 0 := zero_div _
  refine ⟨?_, ?_, fun _ => rfl⟩
  · rw [hzero, Nat.zero_sub, magnitude_zero, Nat.cast_zero, add_zero, mul_zero]
  · rw [hzero, mul_zero]
    positivity

end ExprLang.Binary64

namespace ExprLang.Shortest

open Binary64

variable {i : Interval} {r : ℚ} {tie : Tie} {e : Int} {d : Decimal} {bits k s n : Nat}

def Decimal.value (d : Decimal) : ℚ := d.significand * 10 ^ d.exponent

namespace Interval

def lower (i : Interval) : ℚ := i.below / i.den

def middle (i : Interval) : ℚ := i.num / i.den

def upper (i : Interval) : ℚ := i.above / i.den

/-- The value lies strictly between the ends. -/
structure Proper (i : Interval) : Prop where
  den_pos : 0 < i.den
  num_ne_zero : i.num ≠ 0
  lower_lt : i.lower < i.middle
  lt_upper : i.middle < i.upper

structure Has (i : Interval) (r : ℚ) : Prop where
  lower : i.lower ≤ r
  upper : r ≤ i.upper
  ends : i.closed = false → i.lower ≠ r ∧ r ≠ i.upper

theorem ten_pow_toNat (e : Int) : (10 : ℚ) ^ e.toNat = 10 ^ e * 10 ^ (-e).toNat := by
  rcases le_total 0 e with he | he
  · rw [Int.toNat_of_nonpos (neg_nonpos.2 he), pow_zero, mul_one, ← zpow_natCast,
      Int.toNat_of_nonneg he]
  · rw [Int.toNat_of_nonpos he, pow_zero, ← zpow_natCast, Int.toNat_of_nonneg (neg_nonneg.2 he),
      ← zpow_add₀ (by norm_num), add_neg_cancel, zpow_zero]

theorem cast_unit (n den : Nat) (e : Int) : ((n * (den * 10 ^ e.toNat) : Nat) : ℚ) =
    n * 10 ^ e * den * 10 ^ (-e).toNat := by
  push_cast
  rw [ten_pow_toNat e]
  ring

section Scaled

variable (hden : 0 < i.den)
include hden

theorem le_unit_iff (a n : Nat) (e : Int) :
    a * 10 ^ (-e).toNat ≤ n * (i.den * 10 ^ e.toNat) ↔ (a / i.den : ℚ) ≤ n * 10 ^ e := by
  have hden : (0 : ℚ) < i.den := by exact_mod_cast hden
  have hscale : (0 : ℚ) < 10 ^ (-e).toNat := by positivity
  rw [← Nat.cast_le (α := ℚ), cast_unit, Nat.cast_mul, Nat.cast_pow, Nat.cast_ofNat,
    mul_le_mul_iff_of_pos_right hscale, div_le_iff₀ hden]

theorem unit_le_iff (a n : Nat) (e : Int) :
    n * (i.den * 10 ^ e.toNat) ≤ a * 10 ^ (-e).toNat ↔ (n * 10 ^ e : ℚ) ≤ a / i.den := by
  have hden : (0 : ℚ) < i.den := by exact_mod_cast hden
  have hscale : (0 : ℚ) < 10 ^ (-e).toNat := by positivity
  rw [← Nat.cast_le (α := ℚ), cast_unit, Nat.cast_mul, Nat.cast_pow, Nat.cast_ofNat,
    mul_le_mul_iff_of_pos_right hscale, le_div_iff₀ hden]

theorem contains_iff (n : Nat) (e : Int) :
    i.contains (n * (i.den * 10 ^ e.toNat)) (10 ^ (-e).toNat) = true ↔ i.Has (n * 10 ^ e) := by
  have hlower := le_unit_iff hden i.below n e
  have hupper := unit_le_iff hden i.above n e
  have hlower' := unit_le_iff hden i.below n e
  have hupper' := le_unit_iff hden i.above n e
  rw [contains]
  cases hclosed : i.closed with
  | true =>
    rw [if_pos rfl, Bool.and_eq_true, decide_eq_true_eq, decide_eq_true_eq, hlower, hupper]
    exact ⟨fun h => ⟨h.1, h.2, fun hopen => Bool.noConfusion (hclosed.symm.trans hopen)⟩,
      fun h => ⟨h.lower, h.upper⟩⟩
  | false =>
    rw [if_neg Bool.false_ne_true, Bool.and_eq_true, decide_eq_true_eq, decide_eq_true_eq,
      ← Nat.not_le, ← Nat.not_le, hlower', hupper', not_le, not_le]
    refine ⟨fun h => ⟨h.1.le, h.2.le, fun _ => ⟨h.1.ne, h.2.ne⟩⟩, fun h => ?_⟩
    exact ⟨lt_of_le_of_ne h.lower (h.ends hclosed).1, lt_of_le_of_ne h.upper (h.ends hclosed).2⟩

end Scaled

end Interval

open Shortest.Interval (contains_iff unit_le_iff)

theorem onGrid?_has (hden : 0 < i.den) (h : onGrid? tie i e = some d) : i.Has d.value := by
  unfold onGrid? at h
  simp only [Bool.and_eq_true, decide_eq_true_eq, Nat.pow_eq] at h
  split at h
  case isTrue hfits =>
    split at h <;> cases h
    · exact (contains_iff hden _ _).1 hfits.1.2
    · exact (contains_iff hden _ _).1 hfits.2
  case isFalse =>
    split at h
    case isTrue hlow =>
      cases h
      exact (contains_iff hden _ _).1 hlow.2
    case isFalse =>
      split at h <;> cases h
      rename_i hhigh
      exact (contains_iff hden _ _).1 hhigh

/-- The number of whole steps of the grid up to the value. -/
def steps (i : Interval) (e : Int) : Nat := i.num * 10 ^ (-e).toNat / (i.den * 10 ^ e.toNat)

theorem steps_le (hden : 0 < i.den) (e : Int) : (steps i e * 10 ^ e : ℚ) ≤ i.middle :=
  (unit_le_iff hden i.num _ e).1 (Nat.div_mul_le_self _ _)

theorem lt_steps_succ (hden : 0 < i.den) (e : Int) :
    i.middle < ((steps i e + 1 : Nat) * 10 ^ e : ℚ) := by
  have hunit : 0 < i.den * 10 ^ e.toNat := Nat.mul_pos hden (Nat.pow_pos (by omega))
  rw [← not_le, Interval.middle, ← unit_le_iff hden, not_le, ← Nat.div_lt_iff_lt_mul hunit]
  exact Nat.lt_succ_self _

theorem isSome_onGrid?_of_fits (hden : 0 < i.den)
    (h : 0 < steps i e ∧ i.Has (steps i e * 10 ^ e) ∨ i.Has ((steps i e + 1 : Nat) * 10 ^ e)) :
    (onGrid? tie i e).isSome := by
  rw [← contains_iff hden, ← contains_iff hden, steps] at h
  unfold onGrid?
  simp only [Nat.pow_eq]
  generalize i.num * 10 ^ (-e).toNat / (i.den * 10 ^ e.toNat) = low at h ⊢
  split
  · split <;> rfl
  split
  · rfl
  split
  · rfl
  · rename_i hnotLow hnotHigh
    rw [Bool.and_eq_true, decide_eq_true_eq] at hnotLow
    exact (h.elim hnotLow hnotHigh).elim

/-- On a grid finer than the interval is wide there is a decimal of the interval. -/
theorem isSome_onGrid? (hi : i.Proper) (hgrid : (10 : ℚ) ^ e ≤ i.middle)
    (hfine : (10 : ℚ) ^ e < i.upper - i.lower) : (onGrid? tie i e).isSome := by
  have hle := steps_le hi.den_pos e
  have hlt := lt_steps_succ hi.den_pos e
  have hpos : 0 < steps i e := by
    have hten : (0 : ℚ) < 10 ^ e := by positivity
    have hone : (1 * 10 ^ e : ℚ) < (steps i e + 1 : Nat) * 10 ^ e := by
      rw [one_mul]
      exact hgrid.trans_lt hlt
    have hone := (mul_lt_mul_iff_of_pos_right hten).1 hone
    exact Nat.lt_of_succ_lt_succ (by exact_mod_cast hone)
  refine isSome_onGrid?_of_fits hi.den_pos ?_
  -- One of the two neighbours lies strictly inside: they are less apart than the ends.
  by_cases hbelow : i.lower < steps i e * 10 ^ e
  · have habove := hle.trans_lt hi.lt_upper
    exact .inl ⟨hpos, hbelow.le, habove.le, fun _ => ⟨hbelow.ne, habove.ne⟩⟩
  · have habove : ((steps i e + 1 : Nat) * 10 ^ e : ℚ) < i.upper := by
      push_cast
      linarith
    have hbelow := hi.lower_lt.trans hlt
    exact .inr ⟨hbelow.le, habove.le, fun _ => ⟨hbelow.ne, habove.ne⟩⟩

theorem search_has (hden : 0 < i.den) (h : search tie i n e = some d) : i.Has d.value := by
  induction n generalizing e with
  | zero => cases h
  | succ n ih =>
    rw [search] at h
    rcases Option.or_eq_some_iff.1 h with h | ⟨-, h⟩
    · exact onGrid?_has hden h
    · exact ih h

theorem isSome_search (h : (onGrid? tie i (e - n)).isSome) :
    (search tie i (n + 1) e).isSome := by
  induction n generalizing e with
  | zero =>
    rw [Nat.cast_zero, sub_zero] at h
    rw [search, Option.isSome_or, h, Bool.true_or]
  | succ n ih =>
    rw [search, Option.isSome_or, ih (by rwa [Nat.cast_succ, add_comm, ← sub_sub] at h),
      Bool.or_true]

theorem lt_ten_pow_digitCount (n : Nat) : n < 10 ^ digitCount n :=
  (Nat.length_toDigits_le_iff (by omega) Nat.length_toDigits_pos).1 le_rfl

theorem ten_pow_digitCount_le (hn : n ≠ 0) : 10 ^ (digitCount n - 1) ≤ n := by
  by_contra hlt
  rcases Nat.eq_zero_or_pos (digitCount n - 1) with hzero | hpos
  · rw [hzero, pow_zero] at hlt
    omega
  · have hle := (Nat.length_toDigits_le_iff (by omega) hpos).2 (Nat.not_le.1 hlt)
    rw [← digitCount] at hle
    omega

theorem ten_zpow_leadingExponent_le {num den : Nat} (hnum : num ≠ 0) (hden : den ≠ 0) :
    (10 : ℚ) ^ leadingExponent num den ≤ num / den := by
  have hdenPos : (0 : ℚ) < den := by exact_mod_cast Nat.pos_of_ne_zero hden
  rw [leadingExponent, le_div_iff₀ hdenPos]
  split
  case isTrue hle =>
    have hquotient : num / den ≠ 0 := (Nat.div_pos hle (Nat.pos_of_ne_zero hden)).ne'
    have hcount : (digitCount (num / den) : Int) - 1 = (digitCount (num / den) - 1 : Nat) :=
      (Nat.cast_pred Nat.length_toDigits_pos).symm
    rw [hcount, zpow_natCast]
    exact_mod_cast (Nat.le_div_iff_mul_le (Nat.pos_of_ne_zero hden)).1
      (ten_pow_digitCount_le hquotient)
  case isFalse hlt =>
    obtain ⟨k, hk⟩ : ∃ k, digitCount (den / num) = k + 1 :=
      Nat.exists_eq_succ_of_ne_zero (Nat.length_toDigits_pos).ne'
    have hscale (j : Nat) (h : den ≤ num * 10 ^ j) : (10 : ℚ) ^ (-(j : Int)) * den ≤ num := by
      rw [zpow_neg, zpow_natCast, inv_mul_le_iff₀ (by positivity), mul_comm]
      exact_mod_cast h
    simp only [hk, Nat.add_sub_cancel, Nat.pow_eq]
    split
    case isTrue hle =>
      have hexponent : 1 - ((k + 1 : Nat) : Int) = -(k : Int) := by omega
      rw [hexponent]
      exact hscale k hle
    case isFalse =>
      refine hscale (k + 1) (le_of_lt ?_)
      rw [mul_comm, ← Nat.div_lt_iff_lt_mul (Nat.pos_of_ne_zero hnum), ← hk]
      exact lt_ten_pow_digitCount _

theorem quarters (a k : Nat) :
    ((a * Nat.pow 2 (smallestExponent + k - 2).toNat : Nat) : ℚ) /
      (Nat.pow 2 (2 - (smallestExponent + k)).toNat : Nat) =
        a / 4 * (2 ^ k * 2 ^ smallestExponent) := by
  obtain ⟨e, he⟩ : ∃ e : Int, e = smallestExponent + k - 2 := ⟨_, rfl⟩
  have hflip : 2 - (smallestExponent + k) = -e := by omega
  have hpower : (2 ^ k * 2 ^ smallestExponent : ℚ) = 2 ^ e * 4 := by
    rw [← zpow_natCast, ← zpow_add₀ two_ne_zero, show (k : Int) + smallestExponent = e + 2 by omega,
      zpow_add₀ two_ne_zero]
    norm_num
  have hquotient : (2 ^ e.toNat / 2 ^ (-e).toNat : ℚ) = 2 ^ e := by
    rw [← zpow_natCast, ← zpow_natCast, ← zpow_sub₀ two_ne_zero, Int.toNat_sub_toNat_neg]
  rw [hflip, ← he, hpower, Nat.pow_eq, Nat.pow_eq]
  push_cast
  rw [mul_div_assoc, hquotient]
  ring

/-- The ends of the interval of a pattern are the half-way points to its neighbours. -/
theorem interval_eq (hbits : bits ≠ 0) :
    2 * (interval (partsOfBits bits)).lower =
        (magnitude (bits - 1) + magnitude bits) * 2 ^ smallestExponent ∧
      (interval (partsOfBits bits)).middle = magnitude bits * 2 ^ smallestExponent ∧
      2 * (interval (partsOfBits bits)).upper =
        (magnitude bits + magnitude (bits + 1)) * 2 ^ smallestExponent := by
  obtain ⟨k, s, h, rfl⟩ := exists_splits bits
  have hnext := magnitude_eq (k := k) (s := s + 1) h.lt (h.hidden.imp_right (Nat.le_succ_of_le ·))
  rw [Nat.add_assoc, partsOfBits_splits h, hnext, magnitude_splits h]
  simp only [interval, Interval.lower, Interval.middle, Interval.upper, quarters]
  refine ⟨?_, by push_cast; ring, by push_cast; ring⟩
  by_cases hpower : s = hiddenBit ∧ smallestExponent + (k : Int) ≠ smallestExponent
  · obtain ⟨rfl, hk⟩ := hpower
    obtain ⟨j, rfl⟩ : ∃ j, k = j + 1 := Nat.exists_eq_succ_of_ne_zero (by rintro rfl; simp at hk)
    have hprevious : (j + 1) * hiddenBit + hiddenBit - 1 = j * hiddenBit + (2 * hiddenBit - 1) := by
      rw [Nat.succ_mul]
      have hpos : 0 < hiddenBit := by decide
      omega
    rw [if_pos ⟨rfl, hk⟩, hprevious, magnitude_splits ⟨by decide, .inr (by decide)⟩]
    norm_num [hiddenBit, pow_succ]
    ring
  · have hstep : s ≠ 0 ∧ (k = 0 ∨ hiddenBit ≤ s - 1) := by
      have hpos : 0 < hiddenBit := by decide
      have hhidden := h.hidden
      rcases Nat.eq_zero_or_pos k with rfl | hk
      · omega
      · omega
    obtain ⟨t, rfl⟩ := Nat.exists_eq_succ_of_ne_zero hstep.1
    have hprevious := magnitude_eq (k := k) (s := t) (by have := h.lt; omega) hstep.2
    rw [if_neg hpower, Nat.succ_eq_add_one, ← Nat.add_assoc, Nat.add_sub_cancel, hprevious,
      Nat.cast_sub (by omega)]
    push_cast
    ring

theorem den_interval_pos (p : Parts) : 0 < (interval p).den := Nat.two_pow_pos _

theorem closed_interval (bits : Nat) :
    (interval (partsOfBits bits)).closed = (bits % 2 == 0) := by
  obtain ⟨k, s, h, rfl⟩ := exists_splits bits
  have hparity : (k * hiddenBit + s) % 2 = s % 2 := by
    rw [Nat.add_mod, Nat.mul_mod, show hiddenBit % 2 = 0 from rfl, Nat.mul_zero, Nat.zero_mod,
      Nat.zero_add, Nat.mod_mod]
  rw [partsOfBits_splits h, hparity]
  rfl

theorem significand_partsOfBits_ne_zero (hbits : bits ≠ 0) :
    (partsOfBits bits).significand ≠ 0 := by
  intro hzero
  have hlt := magnitude_strictMono (Nat.pos_of_ne_zero hbits)
  rw [magnitude_zero, magnitude, hzero, Nat.zero_mul] at hlt
  exact Nat.lt_irrefl 0 hlt

theorem proper_interval (hbits : bits ≠ 0) : (interval (partsOfBits bits)).Proper := by
  obtain ⟨hlower, hmiddle, hupper⟩ := interval_eq hbits
  have hpos : (0 : ℚ) < 2 ^ smallestExponent := by positivity
  have hprevious : (magnitude (bits - 1) : ℚ) < magnitude bits := by
    exact_mod_cast magnitude_strictMono (Nat.sub_one_lt hbits)
  have hnext : (magnitude bits : ℚ) < magnitude (bits + 1) := by
    exact_mod_cast magnitude_strictMono (Nat.lt_succ_self bits)
  have hnum : (interval (partsOfBits bits)).num ≠ 0 :=
    mul_ne_zero (mul_ne_zero four_ne_zero (significand_partsOfBits_ne_zero hbits))
      (Nat.two_pow_pos _).ne'
  exact ⟨den_interval_pos _, hnum, by nlinarith, by nlinarith⟩

/-- The interval of a pattern holds the values that round to it. -/
theorem has_iff_roundsTo (hbits : bits ≠ 0) :
    (interval (partsOfBits bits)).Has r ↔ RoundsTo r bits := by
  obtain ⟨hlower, -, hupper⟩ := interval_eq hbits
  have hpos : (0 : ℚ) < 2 ^ smallestExponent := by positivity
  have hunits : 2 * inUnits r = 2 * r / 2 ^ smallestExponent := (mul_div_assoc _ _ _).symm
  have hclosed : (interval (partsOfBits bits)).closed = false ↔ bits % 2 ≠ 0 := by
    rw [closed_interval, beq_eq_false_iff_ne]
  generalize interval (partsOfBits bits) = i at hlower hupper hclosed ⊢
  have hbelow : (magnitude (bits - 1) + magnitude bits : ℚ) ≤ 2 * inUnits r ↔ i.lower ≤ r := by
    rw [hunits, le_div_iff₀ hpos, ← hlower, mul_le_mul_iff_of_pos_left two_pos]
  have habove : 2 * inUnits r ≤ magnitude bits + magnitude (bits + 1) ↔ r ≤ i.upper := by
    rw [hunits, div_le_iff₀ hpos, ← hupper, mul_le_mul_iff_of_pos_left two_pos]
  have hfirst : 2 * inUnits r = magnitude (bits - 1) + magnitude bits ↔ r = i.lower := by
    rw [hunits, div_eq_iff hpos.ne', ← hlower, mul_right_inj' two_ne_zero]
  have hlast : 2 * inUnits r = magnitude bits + magnitude (bits + 1) ↔ r = i.upper := by
    rw [hunits, div_eq_iff hpos.ne', ← hupper, mul_right_inj' two_ne_zero]
  constructor
  · rintro ⟨hlow, hhigh, hends⟩
    refine ⟨hbelow.2 hlow, habove.2 hhigh, fun hpoint => ?_⟩
    by_contra hodd
    obtain ⟨hnotFirst, hnotLast⟩ := hends (hclosed.2 hodd)
    exact hpoint.elim (fun h => hnotFirst (hfirst.1 h).symm) fun h => hnotLast (hlast.1 h)
  · rintro ⟨hlow, hhigh, heven⟩
    refine ⟨hbelow.1 hlow, habove.1 hhigh, fun hopen => ⟨fun h => ?_, fun h => ?_⟩⟩
    · exact hclosed.1 hopen (heven (.inl (hfirst.2 h.symm)))
    · exact hclosed.1 hopen (heven (.inr (hlast.2 h)))

/-- Sixteen digits behind the first one are finer than any interval. -/
theorem fine_enough (hbits : bits ≠ 0) :
    (magnitude bits : ℚ) < (magnitude (bits + 1) - magnitude (bits - 1)) / 2 * 10 ^ 16 := by
  have hprevious : magnitude (bits - 1) ≤ magnitude bits :=
    magnitude_strictMono.monotone (Nat.sub_le _ _)
  have hprevious : (magnitude (bits - 1) : ℚ) ≤ magnitude bits := by exact_mod_cast hprevious
  obtain ⟨k, s, h, rfl⟩ := exists_splits bits
  have hpos : (0 : ℚ) < 2 ^ k := by positivity
  have hlt : (s : ℚ) < 2 ^ 53 := by exact_mod_cast (show s < 2 ^ 53 from h.lt)
  rw [Nat.add_assoc, magnitude_eq (s := s + 1) h.lt (h.hidden.imp_right (Nat.le_succ_of_le ·))]
  rw [magnitude_splits h] at hprevious ⊢
  push_cast at hprevious ⊢
  by_cases hsmall : s ≤ hiddenBit
  · have hsmall : (s : ℚ) ≤ 2 ^ 52 := by exact_mod_cast hsmall
    calc (s : ℚ) * 2 ^ k ≤ 2 ^ 52 * 2 ^ k := mul_le_mul_of_nonneg_right hsmall hpos.le
      _ < 2 ^ k / 2 * 10 ^ 16 := by linarith
      _ ≤ _ := by linarith
  · obtain ⟨t, rfl⟩ : ∃ t, s = t + 1 := Nat.exists_eq_succ_of_ne_zero (by omega)
    rw [← Nat.add_assoc, Nat.add_sub_cancel, magnitude_eq (k := k) (s := t)
      (by have := h.lt; omega) (.inr (by omega))]
    push_cast at hlt ⊢
    calc ((t : ℚ) + 1) * 2 ^ k < 2 ^ 53 * 2 ^ k := mul_lt_mul_of_pos_right hlt hpos
      _ < 2 ^ k * 10 ^ 16 := by linarith
      _ = _ := by ring

theorem isSome_search_interval (tie : Tie) (hbits : bits ≠ 0) :
    let i := interval (partsOfBits bits)
    (search tie i 17 (leadingExponent i.num i.den)).isSome := by
  obtain ⟨hlower, hmiddle, hupper⟩ := interval_eq hbits
  have hproper := proper_interval hbits
  have hpos : (0 : ℚ) < 2 ^ smallestExponent := by positivity
  have hfine := mul_lt_mul_of_pos_right (fine_enough hbits) hpos
  intro i
  change 2 * i.lower = _ at hlower
  change i.middle = _ at hmiddle
  change 2 * i.upper = _ at hupper
  have hleading : (10 : ℚ) ^ leadingExponent i.num i.den ≤ i.middle :=
    ten_zpow_leadingExponent_le hproper.num_ne_zero hproper.den_pos.ne'
  have hgrid (e : Int) : (10 : ℚ) ^ (e - (16 : Nat)) = 10 ^ e / 10 ^ 16 := by
    rw [zpow_sub₀ (by norm_num), zpow_natCast]
  have hmiddle' : 0 ≤ i.middle := (by positivity : (0 : ℚ) ≤ _).trans hleading
  refine isSome_search (isSome_onGrid? hproper ?_ ?_)
  · rw [hgrid, div_le_iff₀ (by positivity)]
    exact hleading.trans (le_mul_of_one_le_right hmiddle' (by norm_num))
  · rw [hgrid, div_lt_iff₀ (by positivity)]
    refine hleading.trans_lt (hmiddle.trans_lt (hfine.trans_eq ?_))
    linarith

/-- The decimal that is written for a double rounds to it. -/
theorem ofParts_roundsTo (tie : Tie) (hbits : bits ≠ 0) :
    RoundsTo (ofParts tie (partsOfBits bits)).value bits := by
  obtain ⟨d, hd⟩ := Option.isSome_iff_exists.1 (isSome_search_interval tie hbits)
  simp only [ofParts, if_neg (significand_partsOfBits_ne_zero hbits), hd, Option.getD_some]
  exact (has_iff_roundsTo hbits).1 (search_has (den_interval_pos _) hd)

end ExprLang.Shortest
