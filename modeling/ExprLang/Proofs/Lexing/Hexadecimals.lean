import ExprLang.Proofs.Comparison.Texts
import ExprLang.Proofs.Doubles.Accumulation
import ExprLang.Proofs.Lexing.NumberTexts

/-!
Hexadecimal texts. As a literal and as an operand such a text has the same value. It is the integer
rounded once unless a digit that is not zero follows a beginning that was a tie and rounded down.
-/
namespace ExprLang

open Binary64

variable {mark : Char} {ds : List Char}

theorem not_isTriviaSpace_of_isHexDigit {c : Char} (h : Escape.isHexDigit c = true) :
    isTriviaSpace c = false := by
  by_contra hspace
  rw [not_isHexDigit_of_isTriviaSpace (Bool.not_eq_false _ ▸ hspace)] at h
  cases h

theorem lt_of_mem_digits {radix d : Nat} (h : d ∈ ds.filterMap (Reading.digit? radix)) :
    d < radix := by
  obtain ⟨c, -, hc⟩ := List.mem_filterMap.1 h
  rw [Reading.digit?, Option.filter_eq_some_iff] at hc
  exact of_decide_eq_true hc.2

theorem trim_hexadecimal (hmark : mark = 'x' ∨ mark = 'X')
    (hds : ∀ d ∈ ds, Escape.isHexDigit d) : Text.trim ('0' :: mark :: ds) = '0' :: mark :: ds := by
  refine Text.trim_eq_self (List.forall_mem_cons.2 ⟨by decide, List.forall_mem_cons.2 ⟨?_, ?_⟩⟩)
  · rcases hmark with rfl | rfl <;> decide
  · exact fun d hd =>
      Text.isWhiteSpace_of_not_isTriviaSpace (not_isTriviaSpace_of_isHexDigit (hds d hd))

section Values

variable (hmark : mark = 'x' ∨ mark = 'X') (hne : ds ≠ []) (hds : ∀ d ∈ ds, Escape.isHexDigit d)
include hmark hne hds

theorem isNumber_hexadecimal : Lexer.IsNumber (String.ofList ('0' :: mark :: ds))
    (Reading.radixValue 16 (ds.filterMap (Reading.digit? 16))) := by
  refine Lexer.isNumber_of_scan String.toList_ofList (by rfl) ?_
  rw [String.toList_ofList]
  rcases hmark with rfl | rfl <;> exact NumberLiteral.scanHex_digits hne hds

theorem toNumber_hexadecimal : Text.toNumber (String.ofList ('0' :: mark :: ds)) =
    Reading.radixValue 16 (ds.filterMap (Reading.digit? 16)) := by
  have hradix : Text.radixOf? mark = some 16 := by rcases hmark with rfl | rfl <;> rfl
  refine (Text.toNumber_of_radix ?_).1
  rw [String.toList_ofList, trim_hexadecimal hmark hds]
  exact .intro hradix hne hds

end Values

/-- Below 2^1024 the value, as a literal or as an operand, is the integer rounded once exactly if no
beginning of the digits lies halfway between two doubles, the lower one even, while a digit that is
not zero follows. -/
theorem hexadecimal_rounded_iff (hmark : mark = 'x' ∨ mark = 'X') (hne : ds ≠ [])
    (hds : ∀ d ∈ ds, Escape.isHexDigit d) (hrange : Escape.hexValue ds < 2 ^ 1024) :
    let text := String.ofList ('0' :: mark :: ds)
    let n := Escape.hexValue ds
    ∃ x, Lexer.IsNumber text x ∧ Text.toNumber text = x ∧ Unsigned x ∧
      (RoundsTo n (magnitudeBits x) ↔ ¬∃ t, TieDown (n / 16 ^ t) ∧ n % 16 ^ t ≠ 0) := by
  intro text n
  have hheld := Reading.held_radixValue fun d hd => @lt_of_mem_digits ds 16 d hd
  exact ⟨_, isNumber_hexadecimal hmark hne hds, toNumber_hexadecimal hmark hne hds,
    Reading.unsigned_radixValue (.inr (.inr rfl)) _, hheld.roundsTo_iff hrange⟩

theorem hexadecimal_rounded_iff_short : Escape.hexValue ['1', 'F'] < 2 ^ 1024 ∧
    ∃ x, Lexer.IsNumber "0x1F" x ∧ Text.toNumber "0x1F" = x ∧
      RoundsTo (31 : Nat) (magnitudeBits x) := by
  have hrange : Escape.hexValue ['1', 'F'] < 2 ^ 1024 := by decide +kernel
  obtain ⟨x, hliteral, hoperand, -, hrounds⟩ := @hexadecimal_rounded_iff 'x' ['1', 'F'] (.inl rfl)
    (List.cons_ne_nil _ _) (List.all_eq_true.1 (by decide)) hrange
  refine ⟨hrange, x, hliteral, hoperand, hrounds.2 ?_⟩
  rintro ⟨t, htie, -⟩
  exact absurd (htie.le.trans (Nat.div_le_self _ _)) (by decide)

/-- The last digit stands behind a tie and is lost. -/
theorem last_digit_lost :
    Lexer.IsNumber "0x20000000000001f" 144115188075855872 ∧
      Text.toNumber "0x20000000000001f" = 144115188075855872 ∧
      ¬RoundsTo (144115188075855903 : Nat) (magnitudeBits 144115188075855872) := by
  let ds := "20000000000001f".toList
  have hne : ds ≠ [] := by decide
  have hds : ∀ d ∈ ds, Escape.isHexDigit d := List.all_eq_true.1 (by decide)
  have hvalue : Reading.radixValue 16 (ds.filterMap (Reading.digit? 16)) = 144115188075855872 := by
    decide +kernel
  have hliteral := isNumber_hexadecimal (.inl rfl) hne hds
  have hoperand := toNumber_hexadecimal (.inl rfl) hne hds
  have hheld := Reading.held_radixValue fun d hd => @lt_of_mem_digits ds 16 d hd
  rw [hvalue] at hliteral hoperand hheld
  refine ⟨hliteral, hoperand, fun hrounds => ?_⟩
  refine (hheld.roundsTo_iff (by decide +kernel)).1 hrounds ⟨1, ?_, by decide⟩
  exact ⟨hiddenBit, 0, le_rfl, by decide, by decide, by decide⟩

end ExprLang
