import ExprLang.Operation.Arithmetic
import Mathlib.Algebra.Order.Ring.Int
import Mathlib.Algebra.Ring.Parity
import Mathlib.Data.Nat.Size

/-!
What arithmetic gives. The leftmost operand that is no finite number and no big integer is
rejected, and the two kinds do not mix. On big integers every operation is exact, and it fails only
where there is no result or where a power would have too many bits.
-/
namespace ExprLang

namespace Value

/-- The values that arithmetic accepts. -/
inductive IsNumeric : Value → Prop
  | number {x : Float} (h : Binary64.isFinite x) : IsNumeric (.number x)
  | bigint (n : Int) : IsNumeric (.bigint n)

/-- What arithmetic says of a value that it rejects. -/
def notNumeric (v : Value) : EvalError := .unexpectedType ["number", "bigint"] v

variable {a : Value}

theorem numeric_of_isNumeric (h : a.IsNumeric) : ∃ x, Numeric.ofValue a = .ok x := by
  cases h with
  | number h => exact ⟨_, if_pos h⟩
  | bigint n => exact ⟨_, rfl⟩

theorem numeric_of_not_isNumeric (h : ¬a.IsNumeric) :
    Numeric.ofValue a = .error a.notNumeric := by
  cases a with
  | number x => exact if_neg fun hx => h (.number hx)
  | bigint n => exact absurd (.bigint n) h
  | _ => rfl

end Value

namespace Arithmetic

def operations : List (Value → Value → Except EvalError Value) :=
  [add, subtract, multiply, divide, remainder, power]

section Apply

variable {float : Float → Float → Float} {big : Int → Int → Except EvalError Int} {a b : Value}
  {x y : Float}

theorem exists_apply {op : Value → Value → Except EvalError Value} (h : op ∈ operations) :
    ∃ float big, op = apply float big := by
  simp only [operations, List.mem_cons, List.not_mem_nil, or_false] at h
  rcases h with rfl | rfl | rfl | rfl | rfl | rfl <;> exact ⟨_, _, rfl⟩

theorem apply_of_not_left (h : ¬a.IsNumeric) : apply float big a b = .error a.notNumeric := by
  rw [apply, Value.numeric_of_not_isNumeric h]
  rfl

theorem apply_of_not_right (ha : a.IsNumeric) (h : ¬b.IsNumeric) :
    apply float big a b = .error b.notNumeric := by
  obtain ⟨x, hx⟩ := Value.numeric_of_isNumeric ha
  rw [apply, hx, Value.numeric_of_not_isNumeric h]
  rfl

theorem apply_number_bigint (hx : Binary64.isFinite x) (n : Int) :
    apply float big (.number x) (.bigint n) = .error .mixedNumeric := by
  rw [apply, Numeric.ofValue, if_pos hx]
  rfl

theorem apply_bigint_number (hx : Binary64.isFinite x) (n : Int) :
    apply float big (.bigint n) (.number x) = .error .mixedNumeric := by
  have hleft : Numeric.ofValue (.bigint n) = .ok (.big n) := rfl
  rw [apply, hleft, Numeric.ofValue, if_pos hx]
  rfl

theorem apply_numbers (hx : Binary64.isFinite x) (hy : Binary64.isFinite y) :
    apply float big (.number x) (.number y) = .ok (.number (float x y)) := by
  rw [apply, Numeric.ofValue, if_pos hx, Numeric.ofValue, if_pos hy]
  rfl

theorem apply_bigints (m n : Int) :
    apply float big (.bigint m) (.bigint n) = (big m n).map .bigint := by
  change (big m n >>= fun k => pure (Value.bigint k)) = _
  cases big m n <;> rfl

end Apply

section Division

/-- A quotient is truncated toward zero if its magnitude is that of the magnitudes, rounded down.
The remainder then goes with the sign of the dividend. -/
structure Truncates (m n q r : Int) : Prop where
  restores : m = q * n + r
  quotient : q.natAbs = m.natAbs / n.natAbs
  remainder_lt : r.natAbs < n.natAbs
  remainder_sign : r = 0 ∨ r.sign = m.sign

theorem truncates {n : Int} (hn : n ≠ 0) (m : Int) : Truncates m n (m.tdiv n) (m.tmod n) where
  restores := (Int.tdiv_mul_add_tmod m n).symm
  quotient := Int.natAbs_tdiv m n
  remainder_lt := by
    rw [Int.natAbs_tmod]
    exact Nat.mod_lt _ (Int.natAbs_pos.2 hn)
  remainder_sign := by
    have hsign := Int.sign_tmod m n
    split at hsign
    · exact .inl (Int.sign_eq_zero_iff_zero.1 hsign)
    · exact .inr hsign

theorem divide_bigints {n : Int} (hn : n ≠ 0) (m : Int) :
    divide (.bigint m) (.bigint n) = .ok (.bigint (m.tdiv n)) := by
  rw [divide, apply_bigints, if_neg hn]
  rfl

theorem remainder_bigints {n : Int} (hn : n ≠ 0) (m : Int) :
    remainder (.bigint m) (.bigint n) = .ok (.bigint (m.tmod n)) := by
  rw [remainder, apply_bigints, if_neg hn]
  rfl

end Division

section Power

theorem bitLength_eq_size (n : Nat) : bitLength n = n.size := by
  rw [bitLength]
  split
  · rename_i hn
    rw [hn, Nat.size_zero]
  · rename_i hn
    exact Nat.le_antisymm (Nat.lt_size.2 (Nat.log2_self_le hn)) (Nat.size_le.2 Nat.lt_log2_self)

theorem bitLength_le_one_iff {n : Nat} : bitLength n ≤ 1 ↔ n ≤ 1 := by
  rw [bitLength_eq_size, Nat.size_le, Nat.pow_one, Nat.lt_succ_iff]

theorem signedPower_eq (m : Int) (e : Nat) : signedPower m e = m ^ e := by
  have hmagnitude : ((m.natAbs.pow e : Nat) : Int) = |m| ^ e := by
    rw [← Int.natCast_natAbs, ← Nat.cast_pow]
    rfl
  rw [signedPower, hmagnitude]
  split
  · rename_i h
    rw [abs_of_neg h.1, (Nat.odd_iff.2 h.2).neg_pow, neg_neg]
  · rename_i h
    rcases lt_or_ge m 0 with hm | hm
    · have heven : Even e := Nat.not_odd_iff_even.1 fun hodd => h ⟨hm, Nat.odd_iff.1 hodd⟩
      rw [abs_of_neg hm, heven.neg_pow]
    · rw [abs_of_nonneg hm]

/-- The power of a base of at most one bit depends on the exponent as far as it is looked at. -/
theorem pow_parity {m : Int} (hm : m.natAbs ≤ 1) (e : Nat) :
    m ^ (if e = 0 then 0 else if e % 2 = 0 then 2 else 1) = m ^ e := by
  have hunit : m = 0 ∨ m = 1 ∨ m = -1 := by omega
  split
  · rename_i he
    rw [he]
  split
  · rename_i hne heven
    have heven := Nat.even_iff.2 heven
    rcases hunit with rfl | rfl | rfl
    · rw [zero_pow hne, zero_pow (by decide)]
    · rw [one_pow, one_pow]
    · rw [heven.neg_one_pow, even_two.neg_one_pow]
  · rename_i hne hodd
    have hodd := Nat.odd_iff.2 (Nat.mod_two_ne_zero.1 hodd)
    rcases hunit with rfl | rfl | rfl
    · rw [zero_pow hne, pow_one]
    · rw [one_pow, one_pow]
    · rw [hodd.neg_one_pow, pow_one]

/-- Counting in words loses nothing: where a word or half a word would not do, the power is too
large. -/
theorem boundedExponent?_eq {bits : Nat} (hbits : bits ≠ 0) (e : Nat) :
    boundedExponent? bits e = if bits * e ≤ 2 ^ 30 then some e else none := by
  have he : e ≤ bits * e := Nat.le_mul_of_pos_left e (Nat.pos_of_ne_zero hbits)
  rw [boundedExponent?, saturatingMul]
  generalize bits * e = product at he ⊢
  refine if_congr ?_ rfl rfl
  unfold maxWord maxBits maxHalfWord
  omega

theorem size_pow_le {m : Int} {e bound : Nat} (h : m.natAbs.size * e ≤ bound) (hbound : bound ≠ 0) :
    (m ^ e).natAbs.size ≤ bound := by
  rw [Int.natAbs_pow, Nat.size_le]
  rcases Nat.eq_zero_or_pos e with rfl | he
  · exact Nat.one_lt_two_pow hbound
  · calc m.natAbs ^ e < (2 ^ m.natAbs.size) ^ e :=
          Nat.pow_lt_pow_left (Nat.lt_size_self _) (Nat.ne_of_gt he)
      _ = 2 ^ (m.natAbs.size * e) := (Nat.pow_mul 2 _ _).symm
      _ ≤ 2 ^ bound := Nat.pow_le_pow_right Nat.two_pos h

theorem bigPower_of_neg {n : Int} (hn : n < 0) (m : Int) :
    bigPower m n = .error (.range "Exponent must be non-negative") :=
  if_pos hn

theorem bigPower_of_unit {m : Int} (hm : m.natAbs ≤ 1) (n : Nat) :
    bigPower m n = .ok (m ^ n) := by
  rw [bigPower, if_neg (Int.not_lt.2 (Int.natCast_nonneg n))]
  simp only [Int.toNat_natCast]
  rw [if_pos (bitLength_le_one_iff.2 hm), signedPower_eq, pow_parity hm]

theorem bigPower_of_large {m : Int} (hm : 1 < m.natAbs) (n : Nat) :
    bigPower m n = if m.natAbs.size * n ≤ 2 ^ 30 then .ok (m ^ n)
      else .error (.range "Maximum BigInt size exceeded") := by
  have hbits : ¬ bitLength m.natAbs ≤ 1 := fun h => Nat.not_lt.2 (bitLength_le_one_iff.1 h) hm
  rw [bigPower, if_neg (Int.not_lt.2 (Int.natCast_nonneg n))]
  simp only [Int.toNat_natCast]
  rw [if_neg hbits, boundedExponent?_eq (by omega), bitLength_eq_size]
  by_cases hsize : m.natAbs.size * n ≤ 2 ^ 30
  · rw [if_pos hsize, if_pos hsize]
    exact congrArg Except.ok (signedPower_eq m n)
  · rw [if_neg hsize, if_neg hsize]

end Power

/-- The outcomes of arithmetic. The leftmost operand that is not accepted is rejected, whatever the
other one is; a number and a big integer do not mix; two numbers give a number. Two big integers
give their exact sum, difference and product, their truncated quotient and its remainder unless the
divisor is zero, and their exact power. There is no power with a negative exponent, and for a base
other than 0, 1 and -1 none whose bits, counted by those of the base, are more than 2^30. -/
theorem outcomes_exact :
    (∀ op ∈ operations, ∀ a b : Value, ¬a.IsNumeric → op a b = .error a.notNumeric) ∧
    (∀ op ∈ operations, ∀ a b : Value, a.IsNumeric → ¬b.IsNumeric →
      op a b = .error b.notNumeric) ∧
    (∀ op ∈ operations, ∀ (x : Float) (n : Int), Binary64.isFinite x →
      op (.number x) (.bigint n) = .error .mixedNumeric ∧
        op (.bigint n) (.number x) = .error .mixedNumeric) ∧
    (∀ op ∈ operations, ∀ x y : Float, Binary64.isFinite x → Binary64.isFinite y →
      ∃ z, op (.number x) (.number y) = .ok (.number z)) ∧
    (∀ m n : Int, add (.bigint m) (.bigint n) = .ok (.bigint (m + n)) ∧
      subtract (.bigint m) (.bigint n) = .ok (.bigint (m - n)) ∧
      multiply (.bigint m) (.bigint n) = .ok (.bigint (m * n))) ∧
    (∀ m n : Int, n ≠ 0 → ∃ q r, divide (.bigint m) (.bigint n) = .ok (.bigint q) ∧
      remainder (.bigint m) (.bigint n) = .ok (.bigint r) ∧ Truncates m n q r) ∧
    (∀ m : Int, divide (.bigint m) (.bigint 0) = .error (.range "Division by zero") ∧
      remainder (.bigint m) (.bigint 0) = .error (.range "Division by zero")) ∧
    (∀ m n : Int, n < 0 →
      power (.bigint m) (.bigint n) = .error (.range "Exponent must be non-negative")) ∧
    (∀ (m : Int) (n : Nat), m.natAbs ≤ 1 →
      power (.bigint m) (.bigint n) = .ok (.bigint (m ^ n))) ∧
    (∀ (m : Int) (n : Nat), 1 < m.natAbs → m.natAbs.size * n ≤ 2 ^ 30 →
      power (.bigint m) (.bigint n) = .ok (.bigint (m ^ n)) ∧
        (m ^ n).natAbs.size ≤ 2 ^ 30) ∧
    (∀ (m : Int) (n : Nat), 1 < m.natAbs → 2 ^ 30 < m.natAbs.size * n →
      power (.bigint m) (.bigint n) = .error (.range "Maximum BigInt size exceeded")) := by
  refine ⟨fun op hop a b h => ?_, fun op hop a b ha h => ?_, fun op hop x n hx => ?_,
    fun op hop x y hx hy => ?_, fun m n => ⟨rfl, rfl, rfl⟩, fun m n hn => ?_,
    fun m => ⟨rfl, rfl⟩, fun m n hn => ?_, fun m n hm => ?_, fun m n hm hsize => ?_,
    fun m n hm hsize => ?_⟩
  · obtain ⟨float, big, rfl⟩ := exists_apply hop
    exact apply_of_not_left h
  · obtain ⟨float, big, rfl⟩ := exists_apply hop
    exact apply_of_not_right ha h
  · obtain ⟨float, big, rfl⟩ := exists_apply hop
    exact ⟨apply_number_bigint hx n, apply_bigint_number hx n⟩
  · obtain ⟨float, big, rfl⟩ := exists_apply hop
    exact ⟨_, apply_numbers hx hy⟩
  · exact ⟨_, _, divide_bigints hn m, remainder_bigints hn m, truncates hn m⟩
  · rw [power, apply_bigints, bigPower_of_neg hn]
    rfl
  · rw [power, apply_bigints, bigPower_of_unit hm]
    rfl
  · refine ⟨?_, size_pow_le hsize (by decide)⟩
    rw [power, apply_bigints, bigPower_of_large hm, if_pos hsize]
    rfl
  · rw [power, apply_bigints, bigPower_of_large hm, if_neg (Nat.not_le.2 hsize)]
    rfl

/-- A negative base with an odd exponent. -/
theorem outcomes_exact_negative_base :
    power (.bigint (-3)) (.bigint 5) = .ok (.bigint (-243)) ∧ (-243 : Int).natAbs.size ≤ 2 ^ 30 :=
  outcomes_exact.2.2.2.2.2.2.2.2.2.1 (-3) 5 (by decide)
    ((Nat.mul_le_mul_right 5 (Nat.size_le.2 (show 3 < 2 ^ 2 by decide))).trans (by decide))

end Arithmetic

end ExprLang
