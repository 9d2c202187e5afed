import ExprLang.Operation.Access
import ExprLang.Proofs.Doubles.Wholes

/-!
Membership and access. What a value owns is said once, for objects and for arrays; testing for a key
and reading the property under it both follow it. Numbers as keys of an array are its indices.
-/
namespace ExprLang

open Binary64

namespace Value

/-- A value itself has a property under a key. Of entries with the same key the first one counts. -/
inductive Owns : Value → String → Value → Prop
  | entry {r : Nat} {before after : List (String × Value)} {key : String} {p : Value}
    (h : ∀ e ∈ before, e.1 ≠ key) : Owns (.object r (before ++ (key, p) :: after)) key p
  | length {r : Nat} {items : List Value} :
    Owns (.array r items) "length" (.ofNat items.length)
  | item {r i : Nat} {items : List Value} {p : Value} (h : items[i]? = some p) :
    Owns (.array r items) (toString i) p

/-- An index is found under its decimal digits and under nothing else. -/
theorem arrayIndex?_eq_some_iff {key : String} {size i : Nat} :
    arrayIndex? key size = some i ↔ i < size ∧ key = toString i := by
  simp only [arrayIndex?]
  constructor
  · intro h
    split at h
    · cases h
    · split at h
      case isTrue hindex =>
        obtain rfl := Option.some.inj h
        exact ⟨hindex.1, hindex.2.symm⟩
      case isFalse => cases h
  · rintro ⟨hlt, rfl⟩
    have hdigits : (toString i).toList = Nat.toDigits 10 i := Nat.toList_repr
    have hall : (Nat.toDigits 10 i).all Char.isDigit = true :=
      List.all_eq_true.2 fun c hc => Nat.isDigit_of_mem_toDigits (by omega) le_rfl hc
    have hvalue : (Nat.toDigits 10 i).foldl (fun n d => 10 * n + (d.toNat - '0'.toNat)) 0 = i :=
      Nat.ofDigitChars_ten_toDigits
    have hne : (Nat.toDigits 10 i).isEmpty = false :=
      List.isEmpty_eq_false_iff.2 Nat.toDigits_ne_nil
    rw [hdigits, hall, hne, hvalue]
    simp [hlt]

theorem toString_ne_length (i : Nat) : toString i ≠ "length" := by
  intro h
  have hl : 'l' ∈ (toString i).toList := by
    rw [h]
    decide
  exact absurd (isDigit_of_mem_toString hl) (by decide)

variable {v : Value} {key : String} {p : Value}

/-- Looking a property up finds what the value owns. -/
theorem ownProperty?_eq_some_iff : v.ownProperty? key = some p ↔ v.Owns key p := by
  cases v with
  | object r entries =>
    rw [ownProperty?, List.lookup_eq_some_iff]
    constructor
    · rintro ⟨before, after, rfl, h⟩
      exact .entry fun e he => (bne_iff_ne.1 (h e he)).symm
    · rintro ⟨h⟩
      exact ⟨_, _, rfl, fun e he => bne_iff_ne.2 (h e he).symm⟩
  | array r items =>
    rw [ownProperty?]
    constructor
    · intro h
      split at h
      case isTrue hkey =>
        cases h
        exact hkey ▸ .length
      case isFalse =>
        obtain ⟨i, hi, hitem⟩ := Option.bind_eq_some_iff.1 h
        exact (arrayIndex?_eq_some_iff.1 hi).2 ▸ .item hitem
    · intro h
      cases h with
      | length => rw [if_pos rfl]
      | @item _ i _ _ hitem =>
        obtain ⟨hlt, -⟩ := List.getElem?_eq_some_iff.1 hitem
        rw [if_neg (toString_ne_length i), arrayIndex?_eq_some_iff.2 ⟨hlt, rfl⟩, Option.bind_some,
          hitem]
  | _ => exact iff_of_false (fun h => nomatch h) (fun h => nomatch h)

/-- Testing for a key and looking it up agree. -/
theorem hasOwnProperty_eq (v : Value) (key : String) :
    v.hasOwnProperty key = (v.ownProperty? key).isSome := by
  cases v with
  | object r entries =>
    rw [hasOwnProperty, ownProperty?, Bool.eq_iff_iff, List.any_eq_true, List.lookup_isSome_iff]
    exact exists_congr fun e => and_congr_right fun _ => by rw [BEq.comm]
  | array r items =>
    rw [hasOwnProperty, ownProperty?]
    by_cases hkey : key = "length"
    · rw [if_pos hkey, decide_eq_true hkey]
      rfl
    · rw [if_neg hkey, decide_eq_false hkey, Bool.false_or]
      cases hindex : arrayIndex? key items.length with
      | none => rfl
      | some i =>
        have hlt : i < items.length := (arrayIndex?_eq_some_iff.1 hindex).1
        rw [Option.bind_some, List.getElem?_eq_getElem hlt]
        rfl
  | _ => rfl

/-- The keys of an array are its length and its indices. -/
theorem exists_owns_array_iff {r : Nat} {items : List Value} :
    (∃ p, (array r items).Owns key p) ↔
      key = "length" ∨ ∃ i < items.length, key = toString i := by
  constructor
  · rintro ⟨p, h⟩
    cases h with
    | length => exact .inl rfl
    | @item _ i _ _ hitem => exact .inr ⟨i, (List.getElem?_eq_some_iff.1 hitem).1, rfl⟩
  · rintro (rfl | ⟨i, hlt, rfl⟩)
    · exact ⟨_, .length⟩
    · exact ⟨_, .item (List.getElem?_eq_getElem hlt)⟩

/-- A text with a character that is no digit, or with a zero before other digits, is no index. -/
theorem toString_ne_of_irregular (h : (∃ c ∈ key.toList, c.isDigit = false) ∨
    ∃ c cs, key.toList = '0' :: c :: cs) (i : Nat) : key ≠ toString i := by
  rintro rfl
  rcases h with ⟨c, hc, hnot⟩ | ⟨c, cs, hzero⟩
  · rw [isDigit_of_mem_toString hc] at hnot
    cases hnot
  · have hdigits : Nat.toDigits 10 i = '0' :: c :: cs := Nat.toList_repr.symm.trans hzero
    rcases Nat.eq_zero_or_pos i with rfl | hpos
    · exact List.cons_ne_nil c cs (List.cons.inj hdigits).2.symm
    · exact (Numerals.toDigits hpos).head?_ne (by rw [hdigits]; rfl)

theorem text_ne_length {x : Float} (hfinite : isFinite x = true) :
    (Value.number x).text ≠ "length" := by
  intro h
  change NumberFormat.value.write x = "length" at h
  cases hzero : isZero x with
  | true =>
    have hexact : exact x = (0 : Nat) := (exact_of_isZero hzero).trans Nat.cast_zero.symm
    rw [NumberFormat.value_write_whole hfinite (by decide) hexact] at h
    exact toString_ne_length 0 h
  | false =>
    have hread := NumberFormat.decimal?_value_write hfinite hzero
    have hnone : Reading.decimal? "length".toList = none := by rfl
    rw [h, hnone] at hread
    cases hread

end Value

open Value

/-- Membership and access agree on what an array or object owns under the text of a scalar key. An
array owns its length and, under its decimal digits, each item; so a finite number as its key stands
for the item at that index, and for nothing if it is no index. (Beyond 2^53, which no memory holds,
indices are not told apart by numbers.) -/
theorem membership_agrees {v key : Value} (hv : v.isObject = true) (hkey : key.isSimple = true) :
    (hasKey key v = .ok (.bool true) ↔ ∃ p, v.Owns key.text p) ∧
    (hasKey key v = .ok (.bool false) ↔ ¬∃ p, v.Owns key.text p) ∧
    (∀ p, v.Owns key.text p → v.property key = .ok p) ∧
    ((¬∃ p, v.Owns key.text p) → v.property key = .ok .undefined) ∧
    ∀ r items, v = .array r items →
      (∀ k, (∃ p, v.Owns k p) ↔ k = "length" ∨ ∃ i < items.length, k = toString i) ∧
      (∀ k, k ≠ "length" → ((∃ c ∈ k.toList, c.isDigit = false) ∨
        ∃ c cs, k.toList = '0' :: c :: cs) → ¬∃ p, v.Owns k p) ∧
      ∀ x, key = .number x → isFinite x = true → items.length ≤ wholeBound →
        (∀ i (h : i < items.length), exact x = i → v.property key = .ok items[i]) ∧
        ((∀ i < items.length, exact x ≠ i) → v.property key = .ok .undefined) := by
  have htext : key.propertyKey? = some key.text := if_pos hkey
  have hhas : hasKey key v = .ok (.bool (v.ownProperty? key.text).isSome) := by
    rw [hasKey, htext]
    exact (if_pos hv).trans (by rw [hasOwnProperty_eq])
  have hnullish : v.isNullish = false := by
    cases v <;> first | rfl | cases hv
  have hproperty : v.property key = .ok ((v.ownProperty? key.text).getD .undefined) := by
    rw [property, hnullish, hv, htext]
    rfl
  have hsome : (v.ownProperty? key.text).isSome = true ↔ ∃ p, v.Owns key.text p := by
    rw [Option.isSome_iff_exists]
    exact exists_congr fun p => ownProperty?_eq_some_iff
  have howned : ∀ p, v.Owns key.text p → v.property key = .ok p := fun p hp => by
    rw [hproperty, ownProperty?_eq_some_iff.2 hp]
    rfl
  have hnone : (¬∃ p, v.Owns key.text p) → v.property key = .ok .undefined := fun h => by
    rw [← hsome, Bool.not_eq_true, Option.isSome_eq_false_iff, Option.isNone_iff_eq_none] at h
    rw [hproperty, h]
    rfl
  refine ⟨?_, ?_, howned, hnone, ?_⟩
  · rw [hhas, ← hsome, Except.ok.injEq, bool.injEq]
  · rw [hhas, ← hsome, Except.ok.injEq, bool.injEq, Bool.not_eq_true]
  · rintro r items rfl
    refine ⟨fun k => exists_owns_array_iff, fun k hlength hirregular h => ?_, ?_⟩
    · rcases exists_owns_array_iff.1 h with rfl | ⟨i, -, hi⟩
      · exact hlength rfl
      · exact toString_ne_of_irregular hirregular i hi
    · rintro x rfl hfinite hsize
      have hindex : ∀ i < items.length, (Value.number x).text = toString i ↔ exact x = i :=
        fun i hi => NumberFormat.value_write_eq_toString_iff hfinite (hi.trans_le hsize)
      refine ⟨fun i hi hx => howned _ ?_, fun hno => hnone fun h => ?_⟩
      · rw [(hindex i hi).2 hx]
        exact .item (List.getElem?_eq_getElem hi)
      · rcases exists_owns_array_iff.1 h with hlength | ⟨i, hi, htext⟩
        · exact text_ne_length hfinite hlength
        · exact hno i hi ((hindex i hi).1 htext)

/-- The negative zero is the first index of an array. -/
theorem membership_agrees_zero :
    let v : Value := .array 0 [.string "a", .null]
    v.isObject = true ∧ (number (-0.0)).isSimple = true ∧ isFinite (-0.0) = true ∧
      (∃ p, v.Owns "0" p) ∧ hasKey (.number (-0.0)) v = .ok (.bool true) ∧
      exact (-0.0) = (0 : Nat) ∧ v.property (.number (-0.0)) = .ok (.string "a") ∧
      ¬∃ p, v.Owns "01" p := by
  intro v
  have hfinite : isFinite (-0.0) = true := by decide +kernel
  have hexact : exact (-0.0) = (0 : Nat) :=
    (exact_of_isZero (by decide +kernel)).trans Nat.cast_zero.symm
  have htext : (number (-0.0)).text = "0" := by decide +kernel
  have howns : v.Owns "0" (.string "a") := .item (i := 0) rfl
  obtain ⟨hhas, -, -, -, harray⟩ :=
    @membership_agrees v (.number (-0.0)) rfl rfl
  obtain ⟨-, hirregular, hindex⟩ := harray 0 _ rfl
  rw [htext] at hhas
  exact ⟨rfl, rfl, hfinite, ⟨_, howns⟩, hhas.2 ⟨_, howns⟩, hexact,
    (hindex _ rfl hfinite (by decide)).1 0 (by decide) hexact,
    hirregular "01" (by decide) (.inr ⟨'1', [], by decide⟩)⟩

end ExprLang
