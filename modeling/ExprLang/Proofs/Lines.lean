import ExprLang.Proofs.Places

/-!
Lines of a text. They are what stands between its newlines, and they are shown without the carriage
returns at their ends. In one text the places run on from line to line and column to column just as
their offsets do.
-/
namespace ExprLang

namespace Position

variable {text : String} {p q : Position} {as bs : List Char}

/-- The order in which places are read. -/
def Before (p q : Position) : Prop := p.line < q.line ∨ p.line = q.line ∧ p.column < q.column

theorem after_append_of_not_mem (as : List Char) (h : '\n' ∉ bs) :
    (after (as ++ bs)).line = (after as).line ∧
      (after (as ++ bs)).column = (after as).column + bs.length := by
  induction bs using List.reverseRecOn with
  | nil => rw [List.append_nil]; exact ⟨rfl, rfl⟩
  | append_singleton bs b ih =>
    have hb : b ≠ '\n' := fun hb => h (hb ▸ List.mem_append_right _ (List.mem_singleton_self b))
    obtain ⟨hline, hcolumn⟩ := ih fun hmem => h (List.mem_append_left _ hmem)
    rw [← List.append_assoc, after_concat, advance, if_neg hb, List.length_append,
      List.length_singleton, hline, hcolumn, Nat.add_assoc]
    exact ⟨rfl, rfl⟩

theorem before_after_append (h : bs ≠ []) : Before (after as) (after (as ++ bs)) := by
  by_cases hnewline : '\n' ∈ bs
  · refine .inl ?_
    have hcount : 0 < bs.count '\n' := List.count_pos_iff.2 hnewline
    change 1 + as.count '\n' < 1 + (as ++ bs).count '\n'
    rw [List.count_append]
    omega
  · obtain ⟨hline, hcolumn⟩ := after_append_of_not_mem as hnewline
    have hlength := List.length_pos_iff.2 h
    exact .inr ⟨hline.symm, by omega⟩

theorem offset_lt_after_append (h : bs ≠ []) : (after as).offset < (after (as ++ bs)).offset := by
  have hlength := List.length_pos_iff.2 h
  have hbytes := length_le_utf8Len bs
  rw [offset_after_append]
  omega

theorem Before.not_symm (h : p.Before q) : ¬ q.Before p := by
  unfold Before at *
  omega

theorem not_before_self (p : Position) : ¬ p.Before p := by
  unfold Before
  omega

theorem IsIn.offset_lt_iff (hp : p.IsIn text) (hq : q.IsIn text) :
    p.offset < q.offset ↔ p.Before q := by
  obtain ⟨as, has, rfl⟩ := hp
  obtain ⟨bs, hbs, rfl⟩ := hq
  rcases List.prefix_or_prefix_of_prefix has hbs with ⟨cs, rfl⟩ | ⟨cs, rfl⟩
  · rcases eq_or_ne cs [] with rfl | hcs
    · rw [List.append_nil]
      exact iff_of_false (Nat.lt_irrefl _) (not_before_self _)
    · exact iff_of_true (offset_lt_after_append hcs) (before_after_append hcs)
  · rcases eq_or_ne cs [] with rfl | hcs
    · rw [List.append_nil]
      exact iff_of_false (Nat.lt_irrefl _) (not_before_self _)
    · exact iff_of_false (Nat.lt_asymm (offset_lt_after_append hcs))
        (before_after_append hcs).not_symm

theorem IsIn.one_le (h : p.IsIn text) : 1 ≤ p.line ∧ 1 ≤ p.column := by
  obtain ⟨before, -, rfl⟩ := h
  exact ⟨Nat.le_add_right _ _, Nat.le_add_right _ _⟩

end Position

namespace Source

open Position (after)

/-- The characters of a line as it is shown. It stands between two newlines or ends of the text, and
after it there are only carriage returns, with which it does not end itself. -/
def IsLine (text : List Char) (n : Nat) (line : List Char) : Prop :=
  ∃ before returns rest, text = before ++ line ++ returns ++ rest ∧
    (after before).line = n ∧ (after before).column = 1 ∧ '\n' ∉ line ∧
    (∀ c ∈ line.getLast?, c ≠ '\r') ∧ (∀ c ∈ returns, c = '\r') ∧ ∀ c ∈ rest.head?, c = '\n'

theorem splitLines_eq_splitOn (text : List Char) : splitLines text = text.splitOn '\n' := by
  induction text with
  | nil => rfl
  | cons c cs ih =>
    rw [List.splitOn_cons_eq_if_modifyHead, ← ih]
    by_cases hc : c = '\n'
    · rw [splitLines, if_pos hc, if_pos (beq_iff_eq.2 hc)]
    · rw [splitLines_cons hc, if_neg (by simpa using hc)]

theorem intercalate_splitLines (text : List Char) :
    ['\n'].intercalate (splitLines text) = text := by
  rw [splitLines_eq_splitOn, List.intercalate_splitOn]

theorem splitLines_intercalate {ls : List (List Char)} (h : ∀ l ∈ ls, '\n' ∉ l) (hne : ls ≠ []) :
    splitLines (['\n'].intercalate ls) = ls := by
  rw [splitLines_eq_splitOn, List.splitOn_intercalate _ h hne]

theorem lineCount_eq (text : List Char) : lineCount text = text.count '\n' + 1 := by
  unfold lineCount
  induction text with
  | nil => rfl
  | cons c cs ih =>
    by_cases hc : c = '\n'
    · rw [splitLines, if_pos hc, List.length_cons, ih, hc, List.count_cons_self]
    · rw [splitLines_cons hc, List.length_modifyHead, ih, List.count_cons_of_ne hc]

theorem not_mem_of_mem_splitLines {text l : List Char} (h : l ∈ splitLines text) : '\n' ∉ l := by
  induction text generalizing l with
  | nil =>
    obtain rfl := List.mem_singleton.1 h
    exact List.not_mem_nil
  | cons c cs ih =>
    by_cases hc : c = '\n'
    · rw [splitLines, if_pos hc] at h
      rcases List.mem_cons.1 h with rfl | h
      · exact List.not_mem_nil
      · exact ih h
    · rw [splitLines_cons hc] at h
      obtain ⟨d, ds, hcs⟩ := List.exists_cons_of_ne_nil (splitLines_ne_nil cs)
      rw [hcs, List.modifyHead_cons] at h
      rw [hcs] at ih
      rcases List.mem_cons.1 h with rfl | h
      · exact fun hmem => (List.mem_cons.1 hmem).elim (fun h => hc h.symm)
          (ih List.mem_cons_self)
      · exact ih (List.mem_cons_of_mem _ h)

theorem intercalate_append_cons (as bs : List (List Char)) (l : List Char) :
    ['\n'].intercalate (as ++ l :: bs) =
      as.flatMap (· ++ ['\n']) ++ l ++ bs.flatMap ('\n' :: ·) := by
  induction as with
  | nil =>
    induction bs generalizing l with
    | nil => simp
    | cons b bs ih =>
      rw [List.nil_append, List.intercalate_cons_cons, ← List.nil_append (b :: bs), ih]
      simp
  | cons a as ih =>
    obtain ⟨d, ds, hds⟩ := List.exists_cons_of_ne_nil
      (List.append_ne_nil_of_right_ne_nil as (List.cons_ne_nil l bs))
    rw [List.cons_append, hds, List.intercalate_cons_cons, ← hds, ih]
    simp

theorem after_flatMap_newline (as : List (List Char)) (h : ∀ l ∈ as, '\n' ∉ l) :
    (after (as.flatMap (· ++ ['\n']))).line = as.length + 1 ∧
      (after (as.flatMap (· ++ ['\n']))).column = 1 := by
  induction as using List.reverseRecOn with
  | nil => exact ⟨rfl, rfl⟩
  | append_singleton as a ih =>
    have hlines : ∀ l ∈ as, '\n' ∉ l := fun l hl => h l (List.mem_append_left _ hl)
    have ha : '\n' ∉ a := h a (List.mem_append_right _ (List.mem_singleton_self a))
    have hline := (Position.after_append_of_not_mem (as.flatMap (· ++ ['\n'])) ha).1
    rw [List.flatMap_append, List.flatMap_singleton, ← List.append_assoc, Position.after_concat,
      Position.advance, if_pos rfl, hline, (ih hlines).1, List.length_append,
      List.length_singleton]
    exact ⟨rfl, rfl⟩

theorem exists_returns (l : List Char) :
    ∃ returns, l = trimReturns l ++ returns ∧ ∀ c ∈ returns, c = '\r' := by
  refine ⟨(l.reverse.takeWhile (· = '\r')).reverse, ?_, fun c hc => ?_⟩
  · rw [trimReturns, ← List.reverse_append, List.takeWhile_append_dropWhile, List.reverse_reverse]
  · simpa using List.mem_takeWhile_imp (List.mem_reverse.1 hc)

theorem getLast?_trimReturns {l : List Char} {c : Char} (h : c ∈ (trimReturns l).getLast?) :
    c ≠ '\r' := by
  rw [trimReturns, List.getLast?_reverse] at h
  have hhead := List.head?_dropWhile_not (· = '\r') l.reverse
  rw [Option.mem_def.1 h] at hhead
  exact fun hc => absurd hhead (by simp [hc])

theorem line?_eq {text : List Char} {n : Nat} (hpos : 1 ≤ n) (hle : n ≤ lineCount text) :
    ∃ as l bs, splitLines text = as ++ l :: bs ∧ as.length + 1 = n ∧
      line? text n = some (trimReturns l) := by
  have hlt : n - 1 < (splitLines text).length := by
    unfold lineCount at hle
    omega
  refine ⟨(splitLines text).take (n - 1), (splitLines text)[n - 1],
    (splitLines text).drop (n - 1 + 1), ?_, ?_, ?_⟩
  · rw [← List.drop_eq_getElem_cons hlt, List.take_append_drop]
  · rw [List.length_take, Nat.min_eq_left hlt.le, Nat.sub_add_cancel hpos]
  · rw [line?, if_neg (Nat.pos_iff_ne_zero.1 hpos), List.getElem?_eq_getElem hlt, Option.map_some]

/-- Every line of a text can be shown. -/
theorem exists_isLine {text : List Char} {n : Nat} (hpos : 1 ≤ n) (hle : n ≤ lineCount text) :
    ∃ line, line? text n = some line ∧ IsLine text n line := by
  obtain ⟨as, l, bs, hlines, hn, hline⟩ := line?_eq hpos hle
  obtain ⟨returns, hreturns, hall⟩ := exists_returns l
  have hmem {l' : List Char} (h : l' ∈ as ++ l :: bs) : '\n' ∉ l' :=
    not_mem_of_mem_splitLines (hlines ▸ h)
  obtain ⟨hafter, hcolumn⟩ := after_flatMap_newline as fun l' h => hmem (List.mem_append_left _ h)
  refine ⟨_, hline, as.flatMap (· ++ ['\n']), returns, bs.flatMap ('\n' :: ·), ?_, ?_, hcolumn,
    fun h => ?_, fun c hc => getLast?_trimReturns hc, hall, fun c hc => ?_⟩
  · rw [List.append_assoc _ (trimReturns l), ← hreturns, ← intercalate_append_cons, ← hlines,
      intercalate_splitLines]
  · rw [hafter, hn]
  · refine hmem (List.mem_append_right _ List.mem_cons_self) ?_
    rw [hreturns]
    exact List.mem_append_left _ h
  · cases bs with
    | nil => cases hc
    | cons b bs => exact (Option.some.inj hc).symm

theorem isLine_of_line? {text line : List Char} {n : Nat} (h : line? text n = some line) :
    IsLine text n line := by
  have hpos : n ≠ 0 := by
    rintro rfl
    cases h
  have hle : n ≤ lineCount text := by
    rw [line?, if_neg hpos, Option.map_eq_some_iff] at h
    obtain ⟨l, hl, -⟩ := h
    exact Nat.le_of_pred_lt (List.getElem?_eq_some_iff.1 hl).1
  obtain ⟨line', hline', hshown⟩ := exists_isLine (Nat.pos_of_ne_zero hpos) hle
  exact Option.some.inj (hline'.symm.trans h) ▸ hshown

/-- A place stands on each character of a line. -/
theorem IsLine.exists_isIn {text : String} {n i : Nat} {line : List Char}
    (h : IsLine text.toList n line) (hi : i < line.length) :
    ∃ p : Position, p.IsIn text ∧ p.line = n ∧ p.column = i + 1 := by
  obtain ⟨before, returns, rest, htext, hline, hcolumn, hnewline, -⟩ := h
  have htake : '\n' ∉ line.take i := fun hmem => hnewline (List.mem_of_mem_take hmem)
  obtain ⟨hline', hcolumn'⟩ := Position.after_append_of_not_mem before htake
  refine ⟨after (before ++ line.take i), ⟨_, ?_, rfl⟩, hline'.trans hline, ?_⟩
  · rw [htext, List.append_assoc (before ++ line)]
    refine ((List.prefix_append_right_inj before).2 (List.take_prefix i line)).trans ?_
    exact List.prefix_append _ _
  · rw [hcolumn', hcolumn, List.length_take, Nat.min_eq_left hi.le, Nat.add_comm]

end Source

end ExprLang
