import ExprLang.Proofs.Doubles.Intervals
import ExprLang.Proofs.Doubles.Signs
import ExprLang.Proofs.Lexing.Numbers

/-!
The text of a finite double without a sign determines it: the value that the text denotes rounds to
that double alone.
-/
namespace ExprLang

open Binary64

namespace Reading

theorem digitsValue_append_zeros (ds : List Char) (n : Nat) :
    digitsValue (ds ++ List.replicate n '0') = digitsValue ds * 10 ^ n := by
  change Nat.ofDigitChars 10 (ds ++ _) 0 = Nat.ofDigitChars 10 ds 0 * 10 ^ n
  rw [Nat.ofDigitChars_append, Nat.ofDigitChars_replicate_zero, Nat.mul_comm]

theorem digitsValue_zeros_append (n : Nat) (ds : List Char) :
    digitsValue (List.replicate n '0' ++ ds) = digitsValue ds := by
  change Nat.ofDigitChars 10 (_ ++ ds) 0 = Nat.ofDigitChars 10 ds 0
  rw [Nat.ofDigitChars_append, Nat.ofDigitChars_replicate_zero, Nat.mul_zero]

/-- The value of a numeral, the sign apart. -/
def Numeral.value (n : Numeral) : ℚ :=
  digitsValue (n.whole ++ n.fraction) * 10 ^ (n.exponent - n.fraction.length)

end Reading

open Reading

namespace Shortest

def Digits.value (d : Digits) : ℚ := digitsValue d.digits * 10 ^ (d.point - d.digits.length)

theorem exists_append_zeros (cs : List Char) :
    ∃ n, cs = cs.rdropWhile (· = '0') ++ List.replicate n '0' := by
  refine ⟨(cs.rtakeWhile (· = '0')).length, ?_⟩
  have hzeros : cs.rtakeWhile (· = '0') =
      List.replicate (cs.rtakeWhile (· = '0')).length '0' := by
    refine List.eq_replicate_iff.2 ⟨rfl, fun c hc => ?_⟩
    have hzero : decide (c = '0') = true :=
      List.mem_rtakeWhile_imp (p := fun c => decide (c = '0')) hc
    exact of_decide_eq_true hzero
  rw [← hzeros, List.rdropWhile_append_rtakeWhile]

/-- Nothing is lost with the zeros at the end. -/
theorem Decimal.value_digits (d : Decimal) : d.digits.value = d.value := by
  obtain ⟨n, hn⟩ := exists_append_zeros (Nat.toDigits 10 d.significand)
  have hdigits : d.digits = ⟨(Nat.toDigits 10 d.significand).rdropWhile (· = '0'),
    d.exponent + (Nat.toDigits 10 d.significand).length⟩ := rfl
  have hvalue : digitsValue (Nat.toDigits 10 d.significand) = d.significand :=
    Nat.ofDigitChars_ten_toDigits
  have hlength := congrArg List.length hn
  rw [hn, digitsValue_append_zeros] at hvalue
  rw [List.length_append, List.length_replicate] at hlength
  rw [hdigits, Digits.value, hlength]
  generalize (Nat.toDigits 10 d.significand).rdropWhile (· = '0') = ds at hvalue
  have hexponent : d.exponent + (ds.length + n : Nat) - ds.length = n + d.exponent := by omega
  rw [hexponent, zpow_add₀ (by norm_num), zpow_natCast, ← mul_assoc, Decimal.value, ← hvalue]
  push_cast
  rfl

/-- The value of the digits of a double rounds to it. -/
theorem digits_roundsTo (tie : Tie) {x : Float} (hzero : isZero x = false) :
    RoundsTo (digits tie x).value (magnitudeBits x) := by
  rw [digits, Decimal.value_digits]
  exact ofParts_roundsTo _ fun hbits => by simp [isZero, hbits] at hzero

end Shortest

theorem NumberText.Shows.value {t : NumberText} {d : Shortest.Digits}
    (h : t.Shows d.digits d.point) : t.numeral.value = d.value := by
  obtain ⟨i, j, hdigits, hpoint⟩ := h
  have hlength := congrArg List.length hdigits
  simp only [List.length_append, List.length_replicate] at hlength
  have hexponent : t.numeral.exponent - t.numeral.fraction.length =
      -j + (d.point - d.digits.length) := by
    change t.numeral.exponent - (t.fraction.getD []).length = _
    omega
  rw [Numeral.value, hexponent]
  change (digitsValue (t.whole ++ t.fraction.getD []) * _ : ℚ) = _
  rw [hdigits, List.append_assoc, digitsValue_zeros_append, digitsValue_append_zeros,
    zpow_add₀ (by norm_num), zpow_neg, zpow_natCast, Shortest.Digits.value]
  push_cast
  rw [mul_assoc, mul_inv_cancel_left₀ (by positivity)]

namespace NumberFormat

variable {x y : Float}

/-- The value that is written for a double rounds to it. -/
theorem value_write_roundsTo (hfinite : isFinite x = true) (hx : Unsigned x) :
    ∃ t : NumberText, t.Valid ∧ (value.write x).toList = t.chars ∧
      RoundsTo t.numeral.value (magnitudeBits x) := by
  cases hzero : isZero x with
  | true =>
    have hbits : magnitudeBits x = 0 := beq_iff_eq.1 hzero
    have hvalue : zeroText.numeral.value = 0 := by
      have hdigits : digitsValue ['0'] = 0 := rfl
      change (digitsValue ['0'] * _ : ℚ) = 0
      rw [hdigits, Nat.cast_zero, zero_mul]
    refine ⟨zeroText, valid_zeroText, value_write_zero hx.isNegative hzero, ?_⟩
    rw [hbits, hvalue]
    exact roundsTo_zero
  | false =>
    obtain ⟨t, ht, hshows, -, hwrite⟩ := value_write_digits hfinite hzero
    rw [hx.isNegative] at hwrite
    exact ⟨t, ht, hwrite, hshows.value ▸ Shortest.digits_roundsTo _ hzero⟩

theorem value_write_injective (hx : isFinite x = true) (hy : isFinite y = true)
    (hux : Unsigned x) (huy : Unsigned y) (h : value.write x = value.write y) : x = y := by
  obtain ⟨s, hs, hwrite, hrounds⟩ := value_write_roundsTo hx hux
  obtain ⟨t, ht, hwrite', hrounds'⟩ := value_write_roundsTo hy huy
  have hchars : s.chars = t.chars := by rw [← hwrite, ← hwrite', h]
  have hnumeral : s.numeral = t.numeral := by
    have hread := NumberText.numeral?_chars hs
    rw [hchars, NumberText.numeral?_chars ht] at hread
    exact (Option.some.inj hread).symm
  refine eq_of_magnitudeBits (hux.isNegative.trans huy.isNegative.symm) ?_
  exact hrounds.unique (hnumeral ▸ hrounds')

end NumberFormat

end ExprLang
