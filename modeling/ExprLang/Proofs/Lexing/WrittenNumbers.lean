import ExprLang.Proofs.Comparison
import ExprLang.Proofs.Comparison.Texts
import ExprLang.Proofs.Doubles.Fewest
import ExprLang.Proofs.Lexing.NumberTexts

/-!
Texts of numbers, read back. The text of a number that is not zero has the value of its shortest
digits, and as a literal and as an operand it is that number again.
-/
namespace ExprLang

open Binary64 NumberLiteral

namespace NumberText

variable {t : NumberText}

theorem isExponent_exponentChars (h : t.Valid) : IsExponent t.exponentChars := by
  obtain ⟨whole, fraction, _ | ⟨negative, ds⟩⟩ := t
  · exact .absent
  · have hsign : [if negative then '-' else '+'] = [] ∨ [if negative then '-' else '+'] = ['+'] ∨
        [if negative then '-' else '+'] = ['-'] := by
      cases negative <;> decide
    exact .present (.inl rfl) hsign (h.exponent_ne_nil _ rfl) (h.exponent_isDigit _ rfl)

theorem isDecimal_chars (h : t.Valid) : IsDecimal t.chars := by
  have hwhole : NumberFormat.WholePart t.whole := ⟨h.whole_ne_nil, h.whole_isDigit, h.whole_zero⟩
  have hexponent := isExponent_exponentChars h
  rw [chars, fractionChars]
  cases hfraction : t.fraction with
  | none => exact .whole hwhole hexponent
  | some ds => exact .point hwhole (h.fraction_isDigit ds hfraction) hexponent

/-- Only an exponent has a letter. -/
theorem mem_chars_iff (h : t.Valid) : 'e' ∈ t.chars ↔ t.exponent ≠ none := by
  have hdigits : ∀ {ds : List Char}, (∀ d ∈ ds, d.isDigit) → 'e' ∉ ds := fun hds hmem =>
    absurd (hds 'e' hmem) (by decide)
  have hfraction : 'e' ∉ t.fractionChars := by
    rw [fractionChars]
    cases hfraction : t.fraction with
    | none => exact List.not_mem_nil
    | some ds =>
      have hds := h.fraction_isDigit ds hfraction
      exact List.not_mem_cons_of_ne_of_not_mem (by decide) (hdigits hds)
  rw [chars, List.mem_append, List.mem_append, or_iff_right (hdigits h.whole_isDigit),
    or_iff_right hfraction, exponentChars]
  cases t.exponent with
  | none => exact iff_of_false List.not_mem_nil (not_not.2 rfl)
  | some e => exact iff_of_true List.mem_cons_self (Option.some_ne_none e)

end NumberText

namespace Reading

/-- The value of the digits with a point behind the first of them. -/
def mantissa (ds : List Char) : ℚ := digitsValue ds / 10 ^ (ds.length - 1)

theorem value_eq_mantissa {d : Shortest.Digits} (h : Numerals d.digits) :
    d.value = mantissa d.digits * 10 ^ (d.point - 1) := by
  obtain ⟨k, hk⟩ : ∃ k, d.digits.length = k + 1 :=
    Nat.exists_eq_succ_of_ne_zero (mt List.length_eq_zero_iff.1 h.ne_nil)
  have hexponent : d.point - ((k + 1 : Nat) : Int) = d.point - 1 - (k : Nat) := by omega
  rw [Shortest.Digits.value, mantissa, hk, hexponent, zpow_sub₀ (by norm_num), zpow_natCast,
    Nat.add_sub_cancel, div_mul_eq_mul_div, mul_div_assoc]

theorem numeral?_minus {cs : List Char} (hsplit : splitSign cs = (false, cs)) :
    numeral? ('-' :: cs) = (numeral? cs).map fun n => { n with negative := true } := by
  rw [numeral?, numeral?, hsplit, splitSign]
  dsimp only
  split <;> split
  · rfl
  · rw [Option.map_map]
    rfl
  · rfl
  · rw [Option.map_map]
    rfl

end Reading

namespace NumberFormat

variable {x : Float}

theorem isPositional_value (point : Int) :
    value.isPositional point = true ↔ -6 ≤ point - 1 ∧ point - 1 ≤ 20 := by
  simp only [isPositional, value, Bool.and_eq_true, decide_eq_true_eq]
  omega

/-- The numeral that is written for a number that is not zero. -/
theorem numeral?_value_write (hfinite : isFinite x = true) (hzero : isZero x = false) :
    let d := Shortest.digits value.tie x
    ∃ n, Reading.numeral? (value.write x).toList = some n ∧ n.negative = isNegative x ∧
      n.value = d.value ∧
      n.exponent = if value.isPositional d.point then 0 else d.point - 1 := by
  intro d
  obtain ⟨t, ht, hshows, hexponent, hwrite⟩ := value_write_digits hfinite hzero
  have hvalue : t.numeral.value = d.value := hshows.value
  have hn : t.numeral.exponent = if value.isPositional d.point then 0 else d.point - 1 := by
    rw [NumberText.numeral, hexponent]
    split
    · rfl
    · exact NumberText.signed_exponentOf _
  have hread := NumberText.numeral?_chars ht
  rw [hwrite]
  cases hnegative : isNegative x with
  | false => exact ⟨t.numeral, hread, rfl, hvalue, hn⟩
  | true =>
    refine ⟨{ t.numeral with negative := true }, ?_, rfl, hvalue, hn⟩
    exact (Reading.numeral?_minus (NumberText.splitSign_chars ht)).trans (congrArg _ hread)

/-- A finite number is what its text denotes as a decimal. -/
theorem decimal?_value_write (hfinite : isFinite x = true) (hzero : isZero x = false) :
    Reading.decimal? (value.write x).toList = some x := by
  obtain ⟨n, hread, hnegative, hvalue, -⟩ := numeral?_value_write hfinite hzero
  have hrounds : RoundsTo n.value (magnitudeBits x) :=
    hvalue ▸ Shortest.digits_roundsTo value.tie hzero
  have hle : magnitudeBits x ≤ infinityBits := (of_decide_eq_true hfinite).le
  rw [Reading.decimal?, hread, Option.map_some, Reading.Numeral.toFloat_of_roundsTo hrounds,
    min_eq_left hle, hnegative]
  exact congrArg some
    (eq_of_magnitudeBits (isNegative_ofMagnitude hle) (magnitudeBits_ofMagnitude hle))

/-- Every finite number without a sign can be written as a literal. -/
theorem isLiteral_iff : IsLiteral x ↔ isFinite x = true ∧ isNegative x = false := by
  refine ⟨fun h => ⟨h.finite, h.unsigned⟩, fun ⟨hfinite, hunsigned⟩ => ⟨hfinite, hunsigned, ?_⟩⟩
  cases hzero : isZero x with
  | false => exact decimal?_value_write hfinite hzero
  | true =>
    have hread : zeroText.numeral.toFloat = ofMagnitude false 0 := by rfl
    have hx : x = ofMagnitude false 0 :=
      eq_of_magnitudeBits (hunsigned.trans (isNegative_ofMagnitude (Nat.zero_le _)).symm)
        ((beq_iff_eq.1 hzero).trans (magnitudeBits_ofMagnitude (Nat.zero_le _)).symm)
    rw [value_write_zero hunsigned hzero, NumberText.decimal?_chars valid_zeroText, hread, ← hx]

theorem toNumber_value_write (hfinite : isFinite x = true) (hzero : isZero x = false) :
    Text.toNumber (value.write x) = x := by
  obtain ⟨t, ht, -, -, hwrite⟩ := value_write_digits hfinite hzero
  have hplain : ∀ c ∈ (value.write x).toList,
      c.isDigit = true ∨ c ∈ ['.', 'e', 'E', '+', '-', '_'] := by
    intro c hc
    rw [hwrite] at hc
    rcases List.mem_append.1 hc with hsign | hc
    · split at hsign
      · rw [List.mem_singleton.1 hsign]
        exact .inr (by decide)
      · cases hsign
    · exact (mem_isDecimal (NumberText.isDecimal_chars ht) c hc).imp_right fun hc =>
        List.mem_append_left ['_'] hc
  have hblank : ∀ c ∈ (value.write x).toList, Text.isWhiteSpace c = false := by
    have hmarks : ['.', 'e', 'E', '+', '-', '_'].all (!Text.isWhiteSpace ·) = true := by decide
    intro c hc
    rcases hplain c hc with hdigit | hmark
    · exact Text.isWhiteSpace_of_not_isTriviaSpace (not_isTriviaSpace_of_isDigit hdigit)
    · exact Bool.not_eq_true' _ ▸ List.all_eq_true.1 hmarks c hmark
  rw [Text.toNumber_of_plain (Text.trim_eq_self hblank) (value_write_ne_nil x) hplain,
    decimal?_value_write hfinite hzero, Option.getD_some]

/-- There is an exponent exactly if the point is too far off. -/
theorem mem_value_write_iff (hfinite : isFinite x = true) (hzero : isZero x = false) :
    'e' ∈ (value.write x).toList ↔
      ¬value.isPositional (Shortest.digits value.tie x).point = true := by
  obtain ⟨t, ht, -, hexponent, hwrite⟩ := value_write_digits hfinite hzero
  have hsign : 'e' ∉ if isNegative x then ['-'] else [] := by split <;> decide
  rw [hwrite, List.mem_append, or_iff_right hsign, NumberText.mem_chars_iff ht, hexponent,
    ite_ne_left_iff]
  exact and_iff_left (Option.some_ne_none _).symm

/-- As a literal the text of a number without a sign is that number. -/
theorem isNumber_value_write (hfinite : isFinite x = true) (hzero : isZero x = false)
    (hpositive : isNegative x = false) : Lexer.IsNumber (value.write x) x := by
  obtain ⟨t, ht, -, -, hwrite⟩ := value_write_digits hfinite hzero
  have hdecimal : IsDecimal (value.write x).toList := by
    rw [hwrite, hpositive]
    exact NumberText.isDecimal_chars ht
  obtain ⟨y, hy, hnumber⟩ := Lexer.isNumber_of_isDecimal hdecimal
  rw [decimal?_value_write hfinite hzero] at hy
  exact Option.some.inj hy ▸ hnumber

theorem order?_value_write (hfinite : isFinite x = true) (hzero : isZero x = false) :
    (Value.string (value.write x)).order? (Value.number x) = .ok (some .eq) := by
  calc (Value.string (value.write x)).order? (Value.number x)
    _ = .ok (order? (Text.toNumber (value.write x)) x) := by
      rw [Value.order?, Comparable.ofValue, Comparable.ofValue, if_pos hfinite]
      rfl
    _ = .ok (order? x x) := by rw [toNumber_value_write hfinite hzero]
    _ = .ok (some .eq) := by
      rw [order?_of_isFinite hfinite hfinite, Std.LawfulEqOrd.compare_eq_iff_eq.2 rfl]

end NumberFormat

/-- The text of a number that is not zero denotes its digits, the fewest that round to it, with the
point behind the first of them, at the power e of ten. It has an exponent exactly if e is below -6
or above 20. As a literal, where there is no sign, and as an operand it is the number again. -/
theorem number_text_exact {x : Float} (hfinite : isFinite x = true) (hzero : isZero x = false) :
    let d := Shortest.digits NumberFormat.value.tie x
    let e := d.point - 1
    let text := NumberFormat.value.write x
    Numerals d.digits ∧ RoundsTo d.value (magnitudeBits x) ∧
    (∀ ds point, (∀ c ∈ ds, c.isDigit) →
      RoundsTo (Shortest.Digits.value ⟨ds, point⟩) (magnitudeBits x) →
        d.digits.length ≤ ds.length) ∧
    (∃ n, Reading.numeral? text.toList = some n ∧ n.negative = isNegative x ∧
      n.value = Reading.mantissa d.digits * 10 ^ e ∧
      n.exponent = if -6 ≤ e ∧ e ≤ 20 then 0 else e) ∧
    ('e' ∈ text.toList ↔ ¬(-6 ≤ e ∧ e ≤ 20)) ∧
    (isNegative x = false → Lexer.IsNumber text x) ∧
    (Value.string text).order? (Value.number x) = .ok (some .eq) := by
  intro d e text
  have hdigits : Numerals d.digits := Shortest.numerals_digits _ hzero
  have hpositional : NumberFormat.value.isPositional d.point = true ↔ -6 ≤ e ∧ e ≤ 20 :=
    NumberFormat.isPositional_value d.point
  obtain ⟨n, hread, hnegative, hvalue, hexponent⟩ := NumberFormat.numeral?_value_write hfinite hzero
  refine ⟨hdigits, Shortest.digits_roundsTo _ hzero,
    fun ds point hds => Shortest.length_digits_le_of_roundsTo _ hzero hds,
    ⟨n, hread, hnegative, hvalue.trans (Reading.value_eq_mantissa hdigits), ?_⟩,
    (NumberFormat.mem_value_write_iff hfinite hzero).trans (not_congr hpositional),
    NumberFormat.isNumber_value_write hfinite hzero, NumberFormat.order?_value_write hfinite hzero⟩
  rw [hexponent]
  exact if_congr hpositional rfl rfl

theorem number_text_exact_small :
    isFinite (-1.5e-7) = true ∧ isZero (-1.5e-7) = false ∧
      NumberFormat.value.write (-1.5e-7) = "-1.5e-7" ∧
      (Value.string "-1.5e-7").order? (Value.number (-1.5e-7)) = .ok (some .eq) := by
  have hfinite : isFinite (-1.5e-7) = true := by decide +kernel
  have hzero : isZero (-1.5e-7) = false := by decide +kernel
  have hwrite : NumberFormat.value.write (-1.5e-7) = "-1.5e-7" := by decide +kernel
  obtain ⟨-, -, -, -, -, -, horder⟩ := number_text_exact hfinite hzero
  exact ⟨hfinite, hzero, hwrite, hwrite ▸ horder⟩

end ExprLang
