import ExprLang.Number.Binary64
import Mathlib.Data.Rat.Cast.Order
import Mathlib.Tactic.Ring
import Mathlib.Tactic.Linarith
import Mathlib.Algebra.Order.Field.Power

/-!
Exact values of doubles. The magnitudes of doubles, counted in units of the smallest one that is not
zero, grow with their patterns: within steps of equal width that double at each power of two.
-/
namespace ExprLang.Binary64

/-- The value of a finite double. -/
def exact (x : Float) : ℚ :=
  (if isNegative x then -1 else 1) * ((parts x).significand * 2 ^ (parts x).exponent)

/-- The magnitude with a pattern, in units of the smallest one that is not zero. -/
def magnitude (bits : Nat) : Nat :=
  (partsOfBits bits).significand * 2 ^ ((partsOfBits bits).exponent - smallestExponent).toNat

/-- A significand at a power of two, as the pattern splits: only at the smallest power may the
hidden bit be missing. -/
structure Splits (k s : Nat) : Prop where
  lt : s < 2 * hiddenBit
  hidden : k = 0 ∨ hiddenBit ≤ s

theorem exists_splits (bits : Nat) : ∃ k s, Splits k s ∧ bits = k * hiddenBit + s := by
  have hpos : 0 < hiddenBit := by decide
  have hdiv := Nat.div_add_mod bits hiddenBit
  have hmod := Nat.mod_lt bits hpos
  rcases hfield : bits / hiddenBit with _ | field
  · exact ⟨0, bits % hiddenBit, ⟨by omega, .inl rfl⟩, by rw [hfield] at hdiv; omega⟩
  · refine ⟨field, hiddenBit + bits % hiddenBit, ⟨by omega, .inr (by omega)⟩, ?_⟩
    rw [hfield, Nat.mul_succ, Nat.mul_comm] at hdiv
    omega

theorem partsOfBits_splits {k s : Nat} (h : Splits k s) :
    partsOfBits (k * hiddenBit + s) = ⟨s, smallestExponent + k⟩ := by
  have hpos : 0 < hiddenBit := by decide
  unfold partsOfBits
  by_cases hs : s < hiddenBit
  · obtain rfl := h.hidden.resolve_right (Nat.not_le.2 hs)
    simp [Nat.div_eq_of_lt hs, Nat.mod_eq_of_lt hs]
  · have hlow := h.lt
    have hfield : (k * hiddenBit + s) / hiddenBit = k + 1 := by
      rw [Nat.mul_comm, Nat.mul_add_div hpos, Nat.div_eq_of_lt_le (k := 1) (by omega) (by omega)]
    have hfraction : (k * hiddenBit + s) % hiddenBit = s - hiddenBit := by
      rw [Nat.mul_comm, Nat.mul_add_mod, Nat.mod_eq_sub_mod (by omega), Nat.mod_eq_of_lt (by omega)]
    simp only [hfield, hfraction, Nat.add_one_ne_zero, if_false, Nat.add_sub_cancel,
      Nat.add_sub_of_le (Nat.not_lt.1 hs)]

theorem magnitude_splits {k s : Nat} (h : Splits k s) :
    magnitude (k * hiddenBit + s) = s * 2 ^ k := by
  rw [magnitude, partsOfBits_splits h, add_sub_cancel_left, Int.toNat_natCast]

/-- The formula still holds where the significand runs over into the next power. -/
theorem magnitude_eq {k s : Nat} (hle : s ≤ 2 * hiddenBit) (hhidden : k = 0 ∨ hiddenBit ≤ s) :
    magnitude (k * hiddenBit + s) = s * 2 ^ k := by
  rcases Nat.lt_or_eq_of_le hle with hlt | rfl
  · exact magnitude_splits ⟨hlt, hhidden⟩
  · have hnext : k * hiddenBit + 2 * hiddenBit = (k + 1) * hiddenBit + hiddenBit := by ring
    rw [hnext, magnitude_splits ⟨by decide, .inr le_rfl⟩]
    ring

theorem magnitude_strictMono : StrictMono magnitude := by
  refine strictMono_nat_of_lt_succ fun bits => ?_
  obtain ⟨k, s, h, rfl⟩ := exists_splits bits
  rw [Nat.add_assoc, magnitude_splits h,
    magnitude_eq h.lt (h.hidden.imp_right (Nat.le_succ_of_le ·))]
  exact Nat.mul_lt_mul_of_pos_right (Nat.lt_succ_self s) (Nat.two_pow_pos k)

theorem exact_eq (x : Float) : exact x =
    (if isNegative x then -1 else 1) * (magnitude (magnitudeBits x) * 2 ^ smallestExponent) := by
  obtain ⟨k, s, h, hbits⟩ := exists_splits (magnitudeBits x)
  rw [exact, parts, hbits, partsOfBits_splits h, magnitude_splits h, zpow_add₀ two_ne_zero,
    zpow_natCast]
  push_cast
  ring

theorem magnitude_zero : magnitude 0 = 0 := rfl

theorem le_of_mul_unit_le {c d : Nat}
    (h : magnitude c * (2 : ℚ) ^ smallestExponent ≤ magnitude d * 2 ^ smallestExponent) :
    c ≤ d := by
  have hmagnitude := le_of_mul_le_mul_right h (by positivity)
  exact magnitude_strictMono.le_iff_le.1 (by exact_mod_cast hmagnitude)

theorem eq_zero_of_mul_unit {c : Nat} (h : magnitude c * (2 : ℚ) ^ smallestExponent = 0) :
    c = 0 := by
  refine Nat.le_zero.1 (le_of_mul_unit_le (h.trans_le ?_))
  rw [magnitude_zero, Nat.cast_zero, zero_mul]

/-- What keeps the order of magnitudes, in both directions and at zero, keeps it under signs. -/
theorem signed_le {p q : ℚ} {i j : Nat} (hp : 0 ≤ p) (hq : 0 ≤ q) (hle : p ≤ q → i ≤ j)
    (hge : q ≤ p → j ≤ i) (hi : p = 0 → i = 0) (hj : q = 0 → j = 0) (s t : Bool)
    (h : (if s then -1 else 1) * p ≤ (if t then -1 else 1) * q) :
    (if s then -(i : Int) else i) ≤ if t then -(j : Int) else j := by
  cases s <;> cases t <;> simp only [Bool.false_eq_true, if_true, if_false, one_mul, neg_one_mul,
    neg_le_neg_iff] at h ⊢
  · exact_mod_cast hle h
  · have hi := hi (by linarith)
    have hj := hj (by linarith)
    omega
  · omega
  · exact_mod_cast hge h

theorem rank_le_of_exact_le {x y : Float} (h : exact x ≤ exact y) : rank x ≤ rank y := by
  rw [exact_eq, exact_eq] at h
  exact signed_le (by positivity) (by positivity) le_of_mul_unit_le le_of_mul_unit_le
    eq_zero_of_mul_unit eq_zero_of_mul_unit _ _ h

theorem exact_eq_rank (x : Float) : exact x =
    (if rank x < 0 then -1 else 1) * (magnitude (rank x).natAbs * 2 ^ smallestExponent) := by
  rw [exact_eq, rank]
  by_cases hsign : isNegative x = true
  · rw [if_pos hsign, if_pos hsign, Int.natAbs_neg, Int.natAbs_natCast]
    rcases Nat.eq_zero_or_pos (magnitudeBits x) with hzero | hpos
    · rw [hzero, magnitude_zero, Nat.cast_zero, zero_mul, mul_zero, mul_zero]
    · rw [if_pos (by omega)]
  · rw [if_neg hsign, if_neg hsign, Int.natAbs_natCast, if_neg (by omega)]

end ExprLang.Binary64
