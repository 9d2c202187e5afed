import ExprLang.Number.Layout
import Mathlib.Data.List.DropRight

/-!
The digits that stand for a double. A double that is not zero is written with decimal digits of
which the first is not a zero, and every double has some text.
-/
namespace ExprLang

theorem isDigit_of_mem_toString {n : Nat} {c : Char} (h : c ∈ (toString n).toList) :
    c.isDigit = true :=
  Nat.isDigit_of_mem_toDigits (by omega) le_rfl (Nat.toList_repr (n := n) ▸ h)

/-- The digits of a positive number as it is commonly written. -/
structure Numerals (ds : List Char) : Prop where
  ne_nil : ds ≠ []
  isDigit (c : Char) (h : c ∈ ds) : c.isDigit
  head?_ne : ds.head? ≠ some '0'

namespace Numerals

theorem toDigits {n : Nat} (hn : 0 < n) : Numerals (Nat.toDigits 10 n) := by
  refine ⟨Nat.toDigits_ne_nil, fun c h => Nat.isDigit_of_mem_toDigits (by omega) le_rfl h, ?_⟩
  induction n using Nat.strong_induction_on with
  | _ n ih =>
    by_cases hlt : n < 10
    · rw [Nat.toDigits_of_lt_base hlt, List.head?_cons]
      exact fun h => hn.ne' (Nat.digitChar_eq_zero.1 (Option.some.inj h))
    · rw [Nat.toDigits_of_base_le (by omega) (by omega),
        List.head?_append_of_ne_nil _ Nat.toDigits_ne_nil]
      exact ih (n / 10) (by omega) (by omega)

/-- Zeros at the end can be left out. -/
theorem trim {ds : List Char} (h : Numerals ds) : Numerals (ds.rdropWhile (· = '0')) := by
  have hne : ds.rdropWhile (· = '0') ≠ [] := by
    rw [Ne, List.rdropWhile_eq_nil_iff]
    intro hall
    obtain ⟨d, ds, rfl⟩ := List.exists_cons_of_ne_nil h.ne_nil
    exact h.head?_ne (congrArg some (of_decide_eq_true (hall d List.mem_cons_self)))
  refine ⟨hne, fun c hc => h.isDigit c ((List.rdropWhile_prefix _ _).mem hc), fun hhead => ?_⟩
  obtain ⟨rest, hrest⟩ := List.rdropWhile_prefix (fun c => decide (c = '0')) ds
  refine h.head?_ne ?_
  rw [← hrest, List.head?_append_of_ne_nil _ hne, hhead]

end Numerals

namespace Shortest

theorem onGrid?_pos {tie : Tie} {i : Interval} {exponent : Int} {d : Decimal}
    (h : onGrid? tie i exponent = some d) : 0 < d.significand := by
  unfold onGrid? at h
  simp only [Bool.and_eq_true, decide_eq_true_eq] at h
  split at h
  case isTrue hfits =>
    split at h <;> cases h
    · exact hfits.1.1
    · exact Nat.succ_pos _
  case isFalse =>
    split at h
    case isTrue hlow =>
      cases h
      exact hlow.1
    case isFalse =>
      split at h <;> cases h
      exact Nat.succ_pos _

theorem search_pos {tie : Tie} {i : Interval} {n : Nat} {exponent : Int} {d : Decimal}
    (h : search tie i n exponent = some d) : 0 < d.significand := by
  induction n generalizing exponent with
  | zero => cases h
  | succ n ih =>
    rw [search] at h
    rcases Option.or_eq_some_iff.1 h with h | ⟨-, h⟩
    · exact onGrid?_pos h
    · exact ih h

theorem ofParts_pos (tie : Tie) {p : Binary64.Parts} (hp : p.significand ≠ 0) :
    0 < (ofParts tie p).significand := by
  rw [ofParts, if_neg hp]
  simp only
  cases hsearch : search tie (interval p) 17 _ with
  | none => exact Nat.pos_of_ne_zero hp
  | some d => exact search_pos hsearch

theorem parts_significand_ne_zero {x : Float} (hx : Binary64.isZero x = false) :
    (Binary64.parts x).significand ≠ 0 := by
  unfold Binary64.parts Binary64.partsOfBits
  have hbits : Binary64.magnitudeBits x ≠ 0 := by simpa [Binary64.isZero] using hx
  have hpos : 0 < Binary64.hiddenBit := by decide
  simp only
  split
  case isTrue hfield =>
    rw [Nat.div_eq_zero_iff_lt hpos] at hfield
    rwa [Nat.mod_eq_of_lt hfield]
  case isFalse => exact (Nat.add_pos_left hpos _).ne'

theorem numerals_digits (tie : Tie) {x : Float} (hx : Binary64.isZero x = false) :
    Numerals (digits tie x).digits :=
  (Numerals.toDigits (ofParts_pos tie (parts_significand_ne_zero hx))).trim

end Shortest

namespace NumberFormat

theorem positional_ne_nil (f : NumberFormat) {ds : List Char} (h : ds ≠ []) (point : Int) :
    f.positional ds point ≠ [] := by
  unfold positional
  split
  · exact List.append_ne_nil_of_left_ne_nil (List.append_ne_nil_of_left_ne_nil h _) _
  split
  · exact List.append_ne_nil_of_right_ne_nil _ (List.cons_ne_nil _ _)
  · exact List.cons_ne_nil _ _

theorem exponential_ne_nil (f : NumberFormat) (ds : List Char) (point : Int) :
    f.exponential ds point ≠ [] := by
  unfold exponential
  exact List.append_ne_nil_of_left_ne_nil
    (List.append_ne_nil_of_right_ne_nil _ (List.cons_ne_nil _ _)) _

/-- Digits that may stand before a point: a zero at the front stands alone. -/
structure WholePart (ds : List Char) : Prop where
  ne_nil : ds ≠ []
  isDigit (c : Char) (h : c ∈ ds) : c.isDigit
  zero : ds.head? = some '0' → ds.length = 1

theorem isDigit_of_mem_replicate {n : Nat} {c : Char} (h : c ∈ List.replicate n '0') :
    c.isDigit := by
  rw [List.eq_of_mem_replicate h]
  rfl

/-- The digits stand among zeros, with the point at its place. -/
def Shows (ds : List Char) (point : Int) (whole fraction : List Char) : Prop :=
  ∃ i j, whole ++ fraction = List.replicate i '0' ++ ds ++ List.replicate j '0' ∧
    (whole.length : Int) = i + point

theorem positional_eq (f : NumberFormat) {ds : List Char} (h : Numerals ds) (point : Int) :
    ∃ whole fraction, WholePart whole ∧ (∀ c ∈ fraction, c.isDigit) ∧
      Shows ds point whole fraction ∧
      f.positional ds point = whole ++ if fraction = [] then f.wholeMark else '.' :: fraction := by
  have hhead : ∀ cs : List Char, (ds ++ cs).head? ≠ some '0' := fun cs => by
    rw [List.head?_append_of_ne_nil _ h.ne_nil]
    exact h.head?_ne
  rw [positional]
  by_cases hlong : (ds.length : Int) ≤ point
  · refine ⟨ds ++ List.replicate (point.toNat - ds.length) '0', [], ⟨?_, ?_, ?_⟩,
      List.forall_mem_nil _, ⟨0, point.toNat - ds.length, by simp, ?_⟩,
      by rw [if_pos hlong, if_pos rfl]⟩
    · exact List.append_ne_nil_of_left_ne_nil h.ne_nil _
    · intro c hc
      exact (List.mem_append.1 hc).elim (h.isDigit c) isDigit_of_mem_replicate
    · exact fun hzero => absurd hzero (hhead _)
    · rw [List.length_append, List.length_replicate]
      omega
  rw [if_neg hlong]
  by_cases hpos : 0 < point
  · have hne : ds.take point.toNat ≠ [] := by
      rw [Ne, List.take_eq_nil_iff, not_or]
      exact ⟨by omega, h.ne_nil⟩
    have hdrop : ds.drop point.toNat ≠ [] := by
      rw [Ne, List.drop_eq_nil_iff]
      omega
    refine ⟨ds.take point.toNat, ds.drop point.toNat,
      ⟨hne, fun c hc => h.isDigit c (List.mem_of_mem_take hc), fun hzero => ?_⟩,
      fun c hc => h.isDigit c (List.mem_of_mem_drop hc), ⟨0, 0, by simp, ?_⟩,
      by rw [if_pos hpos, if_neg hdrop]⟩
    swap
    · rw [List.length_take]
      omega
    have happend := hhead []
    rw [List.append_nil, ← List.take_append_drop point.toNat ds,
      List.head?_append_of_ne_nil _ hne] at happend
    exact absurd hzero happend
  · refine ⟨['0'], List.replicate (-point).toNat '0' ++ ds,
      ⟨List.cons_ne_nil _ _, by simp, fun _ => rfl⟩, fun c hc => ?_,
      ⟨(-point).toNat + 1, 0, ?_, ?_⟩, ?_⟩
    · exact (List.mem_append.1 hc).elim isDigit_of_mem_replicate (h.isDigit c)
    · rw [List.replicate_succ, List.replicate_zero, List.append_nil]
      rfl
    · rw [List.length_singleton]
      omega
    · rw [if_neg hpos, if_neg (List.append_ne_nil_of_right_ne_nil _ h.ne_nil)]
      rfl

theorem exponential_eq (f : NumberFormat) {ds : List Char} (h : Numerals ds) (point : Int) :
    ∃ d fraction, d.isDigit ∧ (∀ c ∈ fraction, c.isDigit) ∧ d :: fraction = ds ∧
      f.exponential ds point = d :: (if fraction = [] then [] else '.' :: fraction) ++
        'e' :: (if point - 1 < 0 then ['-'] else f.plusMark) ++
          Nat.toDigits 10 (point - 1).natAbs := by
  obtain ⟨d, ds, rfl⟩ := List.exists_cons_of_ne_nil h.ne_nil
  have hexponent : (toString (point - 1).natAbs).toList = Nat.toDigits 10 (point - 1).natAbs := by
    rw [Nat.toString_eq_ofList_toDigits, String.toList_ofList]
  have hfraction : (if (d :: ds).length ≤ 1 then [] else '.' :: (d :: ds).drop 1) =
      if ds = [] then [] else '.' :: ds := by
    cases ds <;> rfl
  refine ⟨d, ds, h.isDigit d List.mem_cons_self,
    fun c hc => h.isDigit c (List.mem_cons_of_mem _ hc), rfl, ?_⟩
  rw [exponential, hexponent, hfraction]
  rfl

theorem isNaN_of_isFinite {x : Float} (h : Binary64.isFinite x = true) :
    Binary64.isNaN x = false := by
  unfold Binary64.isFinite at h
  unfold Binary64.isNaN
  simp only [decide_eq_true_eq, decide_eq_false_iff_not] at *
  omega

/-- A finite number that is not zero is written with its sign and its digits. -/
theorem write_eq (f : NumberFormat) {x : Float} (hfinite : Binary64.isFinite x = true)
    (hzero : Binary64.isZero x = false) : (f.write x).toList =
      (if Binary64.isNegative x then ['-'] else []) ++ f.unsigned (Shortest.digits f.tie x) := by
  have hsign : (if Binary64.isNegative x then "-" else "").toList =
      if Binary64.isNegative x then ['-'] else [] := by
    split <;> decide
  rw [write, isNaN_of_isFinite hfinite, hfinite, hzero]
  simp only [Bool.false_eq_true, Bool.not_true, if_false, String.toList_append,
    String.toList_ofList, hsign]

theorem value_write_ne_nil (x : Float) : (value.write x).toList ≠ [] := by
  unfold write
  split
  · decide
  split
  · split <;> decide
  split
  case isTrue => split <;> decide
  case isFalse hzero =>
    rw [String.toList_append, String.toList_ofList]
    refine List.append_ne_nil_of_right_ne_nil _ ?_
    have hdigits := (Shortest.numerals_digits value.tie (Bool.eq_false_iff.2 hzero)).ne_nil
    unfold unsigned
    split
    · exact positional_ne_nil _ hdigits _
    · exact exponential_ne_nil _ _ _

end NumberFormat

end ExprLang
