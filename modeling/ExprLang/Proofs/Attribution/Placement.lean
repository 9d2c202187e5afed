import ExprLang.Listing

/-!
Where fragments stand in a listing. A table of spans puts the first character of a fragment down to
the fragment's span, as long as the listing is no longer than a word can count.
-/
namespace ExprLang

namespace Fragment

theorem size_append (fs gs : List Fragment) : size (fs ++ gs) = size fs + size gs := by
  induction fs with
  | nil => exact (Nat.zero_add _).symm
  | cons f fs ih => rw [List.cons_append, size, size, ih, Nat.add_assoc]

theorem length_join (fs : List Fragment) : (join fs).length = size fs := by
  induction fs with
  | nil => rfl
  | cons f fs ih => rw [join, List.flatMap_cons, List.length_append, size, ← ih, join]

/-- These fragments stand in a listing after so many characters. -/
def Within (listing : List Fragment) (start : Nat) (fs : List Fragment) : Prop :=
  ∃ before after, listing = before ++ fs ++ after ∧ size before = start

namespace Within

variable {listing fs gs : List Fragment} {f : Fragment} {start : Nat}

theorem left (h : Within listing start (fs ++ gs)) : Within listing start fs := by
  obtain ⟨before, after, rfl, hsize⟩ := h
  exact ⟨before, gs ++ after, by simp only [List.append_assoc], hsize⟩

theorem right (h : Within listing start (fs ++ gs)) : Within listing (start + size fs) gs := by
  obtain ⟨before, after, rfl, rfl⟩ := h
  exact ⟨before ++ fs, after, by simp only [List.append_assoc], size_append before fs⟩

theorem at_eq (h : Within listing start fs) {start' : Nat} (e : start = start') :
    Within listing start' fs := e ▸ h

theorem head (h : Within listing start (f :: fs)) : Within listing start [f] :=
  left (show Within listing start ([f] ++ fs) from h)

theorem tail (h : Within listing start (f :: fs)) : Within listing (start + f.text.length) fs :=
  right (show Within listing start ([f] ++ fs) from h)

end Within

theorem locateIn_append (fs : List Fragment) (rest : List SpanEntry) {before position : Nat}
    (hword : before + size fs < SpanTable.wordSize) (hpast : before + size fs < position) :
    SpanTable.locateIn ((fs.map fun f => ⟨f.text.length, f.span⟩) ++ rest) before position =
      SpanTable.locateIn rest (before + size fs) position := by
  induction fs generalizing before with
  | nil => rfl
  | cons f fs ih =>
    rw [size, ← Nat.add_assoc] at hword hpast ⊢
    have hreached : (before + f.text.length) % SpanTable.wordSize = before + f.text.length :=
      Nat.mod_eq_of_lt (by omega)
    rw [List.map_cons, List.cons_append, SpanTable.locateIn]
    simp only [hreached]
    rw [if_neg (by omega), ih hword hpast]

theorem locate?_of_within {listing : List Fragment} {start : Nat} {f : Fragment}
    (h : Within listing start [f]) (htext : f.text ≠ [])
    (hword : size listing < SpanTable.wordSize) :
    (table listing).locate? (start + 1) = some f.span := by
  obtain ⟨before, after, rfl, rfl⟩ := h
  have hlength : 0 < f.text.length := List.length_pos_iff.2 htext
  simp only [size_append, size] at hword
  have hreached : (size before + f.text.length) % SpanTable.wordSize =
      size before + f.text.length := Nat.mod_eq_of_lt (by omega)
  rw [table, SpanTable.locate?, List.append_assoc, List.map_append,
    locateIn_append before _ (by omega) (by omega), List.singleton_append, List.map_cons,
    SpanTable.locateIn]
  simp only [Nat.zero_add, hreached]
  rw [if_pos (by omega)]

theorem locateIn_eq_none (fs : List Fragment) {before position : Nat} (hbefore : before < position)
    (hword : before + size fs < SpanTable.wordSize) :
    SpanTable.locateIn (fs.map fun f => ⟨f.text.length, f.span⟩) before position = none ↔
      before + size fs < position := by
  induction fs generalizing before with
  | nil => exact iff_of_true rfl hbefore
  | cons f fs ih =>
    rw [size, ← Nat.add_assoc] at hword ⊢
    have hreached : (before + f.text.length) % SpanTable.wordSize = before + f.text.length :=
      Nat.mod_eq_of_lt (by omega)
    rw [List.map_cons, SpanTable.locateIn]
    simp only [hreached]
    split
    case isTrue hle => exact iff_of_false (by simp) (by omega)
    case isFalse hgt => exact ih (by omega) hword

theorem locate?_eq_none {listing : List Fragment} {position : Nat} (hposition : 0 < position)
    (hword : size listing < SpanTable.wordSize) :
    (table listing).locate? position = none ↔ size listing < position := by
  have hnone := locateIn_eq_none listing hposition (by rwa [Nat.zero_add])
  rwa [Nat.zero_add] at hnone

end Fragment

end ExprLang
