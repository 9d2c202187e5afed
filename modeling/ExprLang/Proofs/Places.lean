import ExprLang.Source
import Mathlib.Data.List.DropRight
import Mathlib.Data.String.Basic

/-!
Places in a text. A place is where a beginning of the text ends: its offset, line and column are
counted off that beginning, and they lead back to it.
-/
namespace ExprLang

/-- Whether a character goes on with its line. -/
def staysOnLine (c : Char) : Bool := c ≠ '\n'

theorem staysOnLine_eq_true {c : Char} : staysOnLine c = true ↔ c ≠ '\n' := decide_eq_true_iff

theorem not_staysOnLine {c : Char} : ¬ staysOnLine c = true ↔ c = '\n' := by
  rw [staysOnLine_eq_true, not_not]

namespace Position

/-- Where a text ends: its bytes, its newlines, and its characters since the last newline. -/
def after (cs : List Char) : Position :=
  ⟨String.utf8Len cs, 1 + cs.count '\n', 1 + (cs.rtakeWhile staysOnLine).length⟩

/-- A place in a text. -/
def IsIn (text : String) (p : Position) : Prop :=
  ∃ before, before <+: text.toList ∧ p = after before

theorem after_concat (cs : List Char) (c : Char) : after (cs ++ [c]) = (after cs).advance c := by
  unfold after advance
  rw [String.utf8Len_append, List.count_append]
  by_cases hc : c = '\n'
  · rw [if_pos hc, List.rtakeWhile_concat_neg _ _ _ (not_staysOnLine.2 hc)]
    simp [hc, Nat.add_assoc]
  · rw [if_neg hc, List.rtakeWhile_concat_pos _ _ _ (staysOnLine_eq_true.2 hc)]
    simp [hc, Nat.add_assoc]

theorem advanceBy_after (as bs : List Char) : (after as).advanceBy bs = after (as ++ bs) := by
  induction bs generalizing as with
  | nil => rw [advanceBy_nil, List.append_nil]
  | cons b bs ih =>
    rw [advanceBy_cons, ← after_concat, ih, List.append_assoc, List.singleton_append]

theorem advanceBy_start (cs : List Char) : start.advanceBy cs = after cs := advanceBy_after [] cs

theorem isIn_after (as bs : List Char) : (after as).IsIn (String.ofList (as ++ bs)) :=
  ⟨as, by rw [String.toList_ofList]; exact List.prefix_append as bs, rfl⟩

theorem IsIn.valid {text : String} {p : Position} (h : p.IsIn text) :
    String.Pos.Raw.Valid text ⟨p.offset⟩ := by
  obtain ⟨before, ⟨rest, hrest⟩, rfl⟩ := h
  rw [← String.ofList_toList (s := text), ← hrest]
  exact .mk before rest rfl

theorem length_le_utf8Len (cs : List Char) : cs.length ≤ String.utf8Len cs := by
  induction cs with
  | nil => exact Nat.le_refl 0
  | cons c cs ih =>
    have hc := c.utf8Size_pos
    rw [List.length_cons, String.utf8Len_cons]
    omega

theorem offset_after_append (as bs : List Char) :
    (after (as ++ bs)).offset = (after as).offset + String.utf8Len bs :=
  String.utf8Len_append as bs

end Position

namespace Source

open Position (after)

/-- The characters of a text that a span marks off. -/
def slice (text : String) (s : Span) : List Char :=
  (String.Pos.Raw.extract text ⟨s.start.offset⟩ ⟨s.stop.offset⟩).toList

theorem slice_after (as bs cs : List Char) :
    slice (String.ofList (as ++ bs ++ cs)) ⟨after as, after (as ++ bs)⟩ = bs := by
  rw [slice, Position.offset_after_append, after, String.extract_of_valid, String.toList_ofList]

theorem splitLines_ne_nil (cs : List Char) : splitLines cs ≠ [] := by
  fun_cases splitLines cs <;> simp [*]

theorem splitLines_cons {c : Char} (hc : c ≠ '\n') (cs : List Char) :
    splitLines (c :: cs) = (splitLines cs).modifyHead (c :: ·) := by
  rw [splitLines, if_neg hc]
  obtain ⟨l, ls, hcs⟩ := List.exists_cons_of_ne_nil (splitLines_ne_nil cs)
  rw [hcs]
  rfl

/-- The line in which a beginning of a text ends goes on with the first line of the rest. -/
theorem drop_splitLines (as cs : List Char) :
    (splitLines (as ++ cs)).drop (as.count '\n') =
      (splitLines cs).modifyHead (as.rtakeWhile staysOnLine ++ ·) := by
  induction as using List.reverseRecOn generalizing cs with
  | nil =>
    change splitLines cs = (splitLines cs).modifyHead id
    rw [List.modifyHead_id, id]
  | append_singleton as a ih =>
    rw [List.append_assoc, List.singleton_append, List.count_append]
    by_cases ha : a = '\n'
    · have hcut : splitLines (a :: cs) = [] :: splitLines cs := by rw [splitLines, if_pos ha]
      have hcount : [a].count '\n' = 1 := by rw [ha, List.count_singleton_self]
      rw [hcount, ← List.drop_drop, ih, hcut,
        List.rtakeWhile_concat_neg _ _ _ (not_staysOnLine.2 ha), List.modifyHead_cons,
        List.drop_one, List.tail_cons]
      exact (congrFun List.modifyHead_id _).symm
    · rw [List.count_singleton, beq_eq_false_iff_ne.2 ha, if_neg Bool.false_ne_true, Nat.add_zero,
        ih, splitLines_cons ha, List.rtakeWhile_concat_pos _ _ _ (staysOnLine_eq_true.2 ha),
        List.modifyHead_modifyHead]
      simp [Function.comp_def]

theorem exists_trimReturns {c : Char} (hc : c ≠ '\r') (as bs : List Char) :
    ∃ bs', trimReturns (as ++ c :: bs) = as ++ c :: bs' := by
  have hstop : ¬ (decide (c = '\r')) = true := by simpa using hc
  induction bs using List.reverseRecOn with
  | nil => exact ⟨[], by simp [trimReturns, hc]⟩
  | append_singleton bs b ih =>
    by_cases hb : b = '\r'
    · obtain ⟨bs', hbs'⟩ := ih
      refine ⟨bs', ?_⟩
      rw [← hbs']
      simp [trimReturns, hb]
    · exact ⟨bs ++ [b], by simp [trimReturns, hb]⟩

/-- A character that is not skipped at the end of its line stands where its place says. -/
theorem exists_line {c : Char} (hnewline : c ≠ '\n') (hreturn : c ≠ '\r') (as bs : List Char) :
    ∃ l, line? (as ++ c :: bs) (after as).line = some l ∧
      l[(after as).column - 1]? = some c := by
  obtain ⟨l, ls, hl⟩ := List.exists_cons_of_ne_nil (splitLines_ne_nil bs)
  have hline : (splitLines (as ++ c :: bs))[as.count '\n']? =
      some (as.rtakeWhile staysOnLine ++ c :: l) := by
    have hdrop := congrArg List.head? (drop_splitLines as (c :: bs))
    rw [List.head?_drop, splitLines_cons hnewline, hl] at hdrop
    exact hdrop
  obtain ⟨l', hl'⟩ := exists_trimReturns hreturn (as.rtakeWhile staysOnLine) l
  have hnumber : (after as).line - 1 = as.count '\n' := Nat.add_sub_cancel_left _ _
  have hcolumn : (after as).column - 1 = (as.rtakeWhile staysOnLine).length :=
    Nat.add_sub_cancel_left _ _
  refine ⟨as.rtakeWhile staysOnLine ++ c :: l', ?_, ?_⟩
  · rw [line?, if_neg (by unfold after; simp), hnumber, hline, Option.map_some, hl']
  · rw [hcolumn, List.getElem?_append_right (Nat.le_refl _), Nat.sub_self, List.getElem?_cons_zero]

end Source

end ExprLang
