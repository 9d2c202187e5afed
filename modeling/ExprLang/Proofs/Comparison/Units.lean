import ExprLang.Text.Units
import Mathlib.Data.String.Basic

/-!
The order of texts by UTF-16 code units. It is the lexicographic order of the units, and different
texts have different units. It is not the order of the characters: the characters with two units
come before the last ones that have only one.
-/
namespace ExprLang.Text

theorem compareUnits_eq (as bs : List Nat) : compareUnits as bs = compare as bs := by
  induction as generalizing bs with
  | nil => cases bs <;> rfl
  | cons a as ih =>
    cases bs with
    | nil => rfl
    | cons b bs => rw [compareUnits, ih, List.compare_cons_cons]

theorem compare_eq_lt_iff_lt {as bs : List Nat} : compare as bs = .lt ↔ as < bs := by
  induction as generalizing bs with
  | nil => cases bs <;> simp
  | cons a as ih =>
    cases bs with
    | nil => simp
    | cons b bs =>
      rw [List.compare_cons_cons, Ordering.then_eq_lt, ih, List.cons_lt_cons_iff,
        Nat.compare_eq_lt, Nat.compare_eq_eq]

theorem surrogate_bounds {c : Char} (h : ¬c.toNat < 0x10000) :
    0xD800 ≤ surrogateStart + (c.toNat - 0x10000) / 0x400 ∧
      surrogateStart + (c.toNat - 0x10000) / 0x400 < 0xDC00 := by
  have hvalid : c.toNat < 0x110000 := by
    rcases c.valid with hlow | ⟨-, hhigh⟩
    · exact Nat.lt_trans hlow (by decide)
    · exact hhigh
  simp only [surrogateStart]
  omega

/-- The first unit of a character tells how many it has. -/
theorem unitsOf_append_inj {c d : Char} {as bs : List Nat}
    (h : unitsOf c ++ as = unitsOf d ++ bs) : c = d ∧ as = bs := by
  have hbmp : ∀ {e : Char}, ¬(0xD800 ≤ e.toNat ∧ e.toNat < 0xDC00) := fun {e} => by
    have hvalid : e.toNat < 0xD800 ∨ 0xDFFF < e.toNat ∧ e.toNat < 0x110000 := e.valid
    omega
  unfold unitsOf at h
  split at h <;> rename_i hc <;> split at h <;> rename_i hd
  · obtain ⟨hcd, rfl⟩ := List.cons.inj h
    exact ⟨Char.toNat_inj.1 hcd, rfl⟩
  · obtain ⟨hcd, -⟩ := List.cons.inj h
    exact absurd (hcd ▸ surrogate_bounds hd) hbmp
  · obtain ⟨hcd, -⟩ := List.cons.inj h
    exact absurd (hcd ▸ surrogate_bounds hc) hbmp
  · obtain ⟨hhigh, h⟩ := List.cons.inj h
    obtain ⟨hlow, rfl⟩ := List.cons.inj h
    refine ⟨Char.toNat_inj.1 ?_, rfl⟩
    omega

theorem unitsOf_ne_nil (c : Char) : unitsOf c ≠ [] := by
  unfold unitsOf
  split <;> exact List.cons_ne_nil _ _

theorem units_inj {cs ds : List Char} (h : units cs = units ds) : cs = ds := by
  induction cs generalizing ds with
  | nil =>
    cases ds with
    | nil => rfl
    | cons d ds => exact absurd (List.append_eq_nil_iff.1 h.symm).1 (unitsOf_ne_nil d)
  | cons c cs ih =>
    cases ds with
    | nil => exact absurd (List.append_eq_nil_iff.1 h).1 (unitsOf_ne_nil c)
    | cons d ds =>
      obtain ⟨rfl, htail⟩ := unitsOf_append_inj h
      rw [ih htail]

theorem compareTexts_eq (s t : String) :
    compareTexts s t = compare (units s.toList) (units t.toList) :=
  compareUnits_eq _ _

theorem compareTexts_eq_lt_iff {s t : String} :
    compareTexts s t = .lt ↔ units s.toList < units t.toList := by
  rw [compareTexts_eq, compare_eq_lt_iff_lt]

theorem compareTexts_eq_eq_iff {s t : String} : compareTexts s t = .eq ↔ s = t := by
  rw [compareTexts_eq, Std.LawfulEqOrd.compare_eq_iff_eq]
  exact ⟨fun h => String.toList_inj.1 (units_inj h), fun h => h ▸ rfl⟩

theorem units_append (cs ds : List Char) : units (cs ++ ds) = units cs ++ units ds :=
  List.flatMap_append

/-- A character with two units comes before the last characters with one, at the first place where
two texts differ. -/
theorem compareTexts_supplementary {c d : Char} (hc : 0x10000 ≤ c.toNat) (hlow : 0xE000 ≤ d.toNat)
    (hhigh : d.toNat ≤ 0xFFFF) (common cs ds : List Char) :
    compareTexts (.ofList (common ++ c :: cs)) (.ofList (common ++ d :: ds)) = .lt := by
  rw [compareTexts_eq_lt_iff, String.toList_ofList, String.toList_ofList, units_append,
    units_append]
  refine List.append_left_lt ?_
  have hsurrogate := surrogate_bounds (Nat.not_lt.2 hc)
  have hunits : unitsOf d = [d.toNat] := if_pos (by omega)
  rw [units, units, List.flatMap_cons, List.flatMap_cons, hunits, unitsOf, if_neg (by omega)]
  exact List.Lex.rel (by omega)

end ExprLang.Text
