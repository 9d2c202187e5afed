import ExprLang.Operation.Order
import ExprLang.Proofs.Comparison.Units
import ExprLang.Proofs.Decimals

/-!
Laws of the order of values. Exactly the finite numbers, the big integers and the strings can be
compared, the two directions of a comparison mirror each other, and the values of one kind are
ordered totally.
-/
namespace ExprLang

namespace Binary64

theorem order?_of_isFinite {x y : Float} (hx : isFinite x) (hy : isFinite y) :
    order? x y = some (compare (rank x) (rank y)) := by
  rw [order?, NumberFormat.isNaN_of_isFinite hx, NumberFormat.isNaN_of_isFinite hy]
  rfl

theorem order?_swap (x y : Float) : order? y x = (order? x y).map Ordering.swap := by
  rw [order?, order?, Bool.or_comm]
  split
  · rfl
  · rw [Option.map_some, ← Std.OrientedOrd.eq_swap]

end Binary64

theorem Comparable.order?_swap (a b : Comparable) :
    b.order? a = (a.order? b).map Ordering.swap := by
  have hbig : ∀ m n : Int, compare n m = (compare m n).swap := fun _ _ => Std.OrientedOrd.eq_swap
  cases a with
  | float x => cases b <;> exact Binary64.order?_swap _ _
  | big m =>
    cases b with
    | float y => exact Binary64.order?_swap _ _
    | big n => exact congrArg some (hbig m n)
    | text t =>
      rw [order?, order?, Option.map_map]
      exact congrArg (Option.map · _) (funext fun n => hbig m n)
  | text s =>
    cases b with
    | float y => exact Binary64.order?_swap _ _
    | big n =>
      rw [order?, order?, Option.map_map]
      exact congrArg (Option.map · _) (funext fun m => hbig m n)
    | text t =>
      rw [order?, order?, Option.map_some, Text.compareTexts_eq, Text.compareTexts_eq,
        ← Std.OrientedOrd.eq_swap]

namespace Value

inductive IsComparable : Value → Prop
  | number {x : Float} (h : Binary64.isFinite x) : IsComparable (.number x)
  | bigint (n : Int) : IsComparable (.bigint n)
  | string (s : String) : IsComparable (.string s)

/-- Two comparable values of the same kind. -/
inductive Alike : Value → Value → Prop
  | number {x y : Float} (hx : Binary64.isFinite x) (hy : Binary64.isFinite y) :
    Alike (.number x) (.number y)
  | bigint (m n : Int) : Alike (.bigint m) (.bigint n)
  | string (s t : String) : Alike (.string s) (.string t)

/-- What a comparison says of a value that it rejects. -/
def notComparable (v : Value) : EvalError := .unexpectedType ["number", "bigint", "string"] v

def AtMost (a b : Value) : Prop := ∃ o, a.order? b = .ok (some o) ∧ o.isLE

variable {a b c : Value}

theorem ofValue_of_isComparable (h : a.IsComparable) : ∃ x, Comparable.ofValue a = .ok x := by
  cases h with
  | number h => exact ⟨_, if_pos h⟩
  | bigint | string => exact ⟨_, rfl⟩

theorem ofValue_of_not_isComparable (h : ¬a.IsComparable) :
    Comparable.ofValue a = .error a.notComparable := by
  cases a with
  | number x => exact if_neg fun hx => h (.number hx)
  | bigint n => exact absurd (.bigint n) h
  | string s => exact absurd (.string s) h
  | _ => rfl

theorem order?_of_not_left (h : ¬a.IsComparable) : a.order? b = .error a.notComparable := by
  rw [order?, ofValue_of_not_isComparable h]
  rfl

theorem order?_of_not_right (ha : a.IsComparable) (h : ¬b.IsComparable) :
    a.order? b = .error b.notComparable := by
  obtain ⟨x, hx⟩ := ofValue_of_isComparable ha
  rw [order?, hx, ofValue_of_not_isComparable h]
  rfl

theorem exists_order?_iff : (∃ o, a.order? b = .ok o) ↔ a.IsComparable ∧ b.IsComparable := by
  constructor
  · rintro ⟨o, ho⟩
    by_contra h
    by_cases ha : a.IsComparable
    · rw [order?_of_not_right ha fun hb => h ⟨ha, hb⟩] at ho
      cases ho
    · rw [order?_of_not_left ha] at ho
      cases ho
  · rintro ⟨ha, hb⟩
    obtain ⟨x, hx⟩ := ofValue_of_isComparable ha
    obtain ⟨y, hy⟩ := ofValue_of_isComparable hb
    exact ⟨x.order? y, by rw [order?, hx, hy]; rfl⟩

theorem order?_swap {o : Option Ordering} (h : a.order? b = .ok o) :
    b.order? a = .ok (o.map Ordering.swap) := by
  obtain ⟨ha, hb⟩ := exists_order?_iff.1 ⟨o, h⟩
  obtain ⟨x, hx⟩ := ofValue_of_isComparable ha
  obtain ⟨y, hy⟩ := ofValue_of_isComparable hb
  rw [order?, hx, hy] at h
  obtain rfl := Except.ok.inj h
  rw [order?, hx, hy, ← Comparable.order?_swap]
  rfl

theorem order?_number {x y : Float} (hx : Binary64.isFinite x) (hy : Binary64.isFinite y) :
    (number x).order? (number y) = .ok (some (compare (Binary64.rank x) (Binary64.rank y))) := by
  rw [order?, Comparable.ofValue, if_pos hx, Comparable.ofValue, if_pos hy,
    ← Binary64.order?_of_isFinite hx hy]
  rfl

theorem order?_string (s t : String) : (string s).order? (string t) =
    .ok (some (compare (Text.units s.toList) (Text.units t.toList))) := by
  rw [← Text.compareTexts_eq]
  rfl

/-- Values of one kind are ordered, and as equal ones exactly if they are. -/
theorem Alike.exists_order? (h : a.Alike b) :
    ∃ o, a.order? b = .ok (some o) ∧ (o = .eq ↔ a.strictEquals b) := by
  cases h with
  | number hx hy =>
    refine ⟨_, order?_number hx hy, ?_⟩
    rw [strictEquals, Binary64.same, Binary64.order?_of_isFinite hx hy, beq_iff_eq,
      Option.some.injEq]
  | bigint m n =>
    refine ⟨compare m n, rfl, ?_⟩
    rw [strictEquals, beq_iff_eq, Std.LawfulEqOrd.compare_eq_iff_eq]
  | string s t =>
    refine ⟨_, order?_string s t, ?_⟩
    rw [strictEquals, beq_iff_eq, ← Text.compareTexts_eq, Text.compareTexts_eq_eq_iff]

theorem atMost_of_compare {α : Type} [Ord α] [Std.TransOrd α] {x y z : α}
    (hab : a.order? b = .ok (some (compare x y))) (hbc : b.order? c = .ok (some (compare y z)))
    (hac : a.order? c = .ok (some (compare x z))) (h : a.AtMost b) (h' : b.AtMost c) :
    a.AtMost c := by
  obtain ⟨o, ho, hle⟩ := h
  obtain ⟨p, hp, hle'⟩ := h'
  cases ho.symm.trans hab
  cases hp.symm.trans hbc
  exact ⟨_, hac, Std.TransOrd.isLE_trans hle hle'⟩

theorem AtMost.trans (hab : a.Alike b) (hbc : b.Alike c) (h : a.AtMost b) (h' : b.AtMost c) :
    a.AtMost c := by
  cases hab with
  | number hx hy =>
    cases hbc with
    | number _ hz =>
      exact atMost_of_compare (order?_number hx hy) (order?_number hy hz) (order?_number hx hz)
        h h'
  | bigint m n =>
    cases hbc with
    | bigint _ k =>
      exact atMost_of_compare (x := m) (y := n) (z := k) rfl rfl rfl h h'
  | string s t =>
    cases hbc with
    | string _ u =>
      exact atMost_of_compare (order?_string s t) (order?_string t u) (order?_string s u) h h'

/-- The laws of the order of values. A comparison succeeds exactly on comparable values, its mirror
image is the comparison the other way, and it rejects the leftmost value that is not comparable.
Within a kind it is total and transitive, and its equality is that of the values. Strings are
ordered as their UTF-16 code units are, by which a character with two units comes before the last
ones with one. -/
theorem order?_lawful :
    (∀ a b : Value, (∃ o, a.order? b = .ok o) ↔ a.IsComparable ∧ b.IsComparable) ∧
    (∀ a b : Value, ∀ o, a.order? b = .ok o → b.order? a = .ok (o.map Ordering.swap)) ∧
    (∀ a b : Value, ¬a.IsComparable → a.order? b = .error a.notComparable) ∧
    (∀ a b : Value, a.IsComparable → ¬b.IsComparable → a.order? b = .error b.notComparable) ∧
    (∀ a b : Value, a.Alike b →
      ∃ o, a.order? b = .ok (some o) ∧ (o = .eq ↔ a.strictEquals b)) ∧
    (∀ a b c : Value, a.Alike b → b.Alike c → a.AtMost b → b.AtMost c → a.AtMost c) ∧
    (∀ s t : String, ∃ o, (string s).order? (string t) = .ok (some o) ∧
      (o = .lt ↔ Text.units s.toList < Text.units t.toList) ∧ (o = .eq ↔ s = t)) ∧
    (∀ c d : Char, 0x10000 ≤ c.toNat → 0xE000 ≤ d.toNat → d.toNat ≤ 0xFFFF →
      ∀ common cs ds : List Char, (string (.ofList (common ++ c :: cs))).order?
        (string (.ofList (common ++ d :: ds))) = .ok (some .lt)) := by
  refine ⟨fun a b => exists_order?_iff, fun a b o => order?_swap,
    fun a b => order?_of_not_left, fun a b => order?_of_not_right,
    fun a b => Alike.exists_order?, fun a b c => AtMost.trans, fun s t => ?_,
    fun c d hc hlow hhigh common cs ds => ?_⟩
  · exact ⟨Text.compareTexts s t, rfl, Text.compareTexts_eq_lt_iff, Text.compareTexts_eq_eq_iff⟩
  · exact congrArg (Except.ok <| some ·)
      (Text.compareTexts_supplementary hc hlow hhigh common cs ds)

/-- A character with two units, and one for private use, behind the same letter. -/
theorem order?_lawful_surrogates :
    (string "a😀").order? (string "a\uE000z") = .ok (some .lt) :=
  order?_lawful.2.2.2.2.2.2.2 '😀' '\uE000' (by decide) (by decide) (by decide) ['a'] [] ['z']

end Value

end ExprLang
