import ExprLang.Proofs.Frames

/-!
Carets against the columns that a span covers. In a span within one line they stand under these
columns unless the span reaches into carriage returns that are not shown. In a span over several
lines its last line has one caret for each column up to the end of the span, which is exclusive, and
one more.
-/
namespace ExprLang.Source

/-- A place of the text with this line and column is in the span. -/
def Covers (text : String) (span : Span) (n column : Nat) : Prop :=
  ∃ p : Position, p.IsIn text ∧ p.line = n ∧ p.column = column ∧
    span.start.offset ≤ p.offset ∧ p.offset < span.stop.offset

/-- Carets exactly beneath those characters of a line that are covered, and a single one if none
is. -/
structure CaretsBeneath (line : List Char) (covered : Nat → Prop) (marks : List Char) : Prop where
  beneath : (∃ i < line.length, covered (i + 1)) →
    ∀ i, marks[i]? = some '^' ↔ i < line.length ∧ covered (i + 1)
  single : (∀ i < line.length, ¬ covered (i + 1)) → marks.count '^' = 1

variable {text : String} {span : Span} {line : List Char} {n i head : Nat} {m : Marker}

section Columns

/-- The column in which the covered part of a line begins. -/
def firstColumn (span : Span) (n : Nat) : Nat :=
  if n = span.start.line then span.start.column else 1

/-- The column before which the covered part of a line ends. -/
def endColumn (span : Span) (n length : Nat) : Nat :=
  if n = span.stop.line then span.stop.column else length + 1

theorem covers_iff {p : Position} (hstart : span.start.IsIn text) (hstop : span.stop.IsIn text)
    (hp : p.IsIn text) :
    Covers text span p.line p.column ↔ ¬ p.Before span.start ∧ p.Before span.stop := by
  constructor
  · rintro ⟨q, hq, hline, hcolumn, hfrom, hto⟩
    rw [← Nat.not_lt, hq.offset_lt_iff hstart] at hfrom
    rw [hq.offset_lt_iff hstop] at hto
    unfold Position.Before at *
    omega
  · rintro ⟨hfrom, hto⟩
    rw [← hp.offset_lt_iff hstart, Nat.not_lt] at hfrom
    exact ⟨p, hp, rfl, rfl, hfrom, (hp.offset_lt_iff hstop).2 hto⟩

theorem covers_iff_columns (hstart : span.start.IsIn text) (hstop : span.stop.IsIn text)
    (hfrom : span.start.line ≤ n) (hto : n ≤ span.stop.line) (hline : IsLine text.toList n line)
    (hi : i < line.length) :
    Covers text span n (i + 1) ↔
      firstColumn span n ≤ i + 1 ∧ i + 1 < endColumn span n line.length := by
  obtain ⟨p, hp, rfl, hcolumn⟩ := hline.exists_isIn hi
  rw [← hcolumn, covers_iff hstart hstop hp]
  unfold Position.Before firstColumn endColumn
  split_ifs <;> omega

end Columns

section Carets

theorem getElem?_carets (line : List Char) (m : Marker) (i : Nat) :
    (carets line m)[i]? = some '^' ↔ min (m.column - 1) line.length ≤ i ∧
      i < min (m.column - 1) line.length + max m.count 1 := by
  have hlength : (indent line m.column).length = min (m.column - 1) line.length := by
    rw [indent, List.length_map, List.length_take]
  rw [carets, List.getElem?_append, hlength]
  split
  · rename_i hlt
    have hindent (h : (indent line m.column)[i]? = some '^') : False :=
      absurd (eq_of_mem_indent (List.mem_of_getElem? h)) (by decide)
    exact iff_of_false hindent (by omega)
  · rw [List.getElem?_replicate]
    split <;> simp <;> omega

theorem count_carets (line : List Char) (m : Marker) :
    (carets line m).count '^' = max m.count 1 := by
  have hindent : '^' ∉ indent line m.column := fun h => absurd (eq_of_mem_indent h) (by decide)
  rw [carets, List.count_append, List.count_eq_zero.2 hindent, List.count_replicate_self,
    Nat.zero_add]

theorem eq_of_forall_between_iff {a b c d : Nat} (hab : a < b) (hcd : c < d)
    (h : ∀ i, a ≤ i ∧ i < b ↔ c ≤ i ∧ i < d) : a = c ∧ b = d := by
  have ha := (h a).1 ⟨le_rfl, hab⟩
  have hb := (h (b - 1)).1 (by omega)
  have hc := (h c).2 ⟨le_rfl, hcd⟩
  have hd := (h (d - 1)).2 (by omega)
  omega

/-- Where the covered columns are those between two, the carets are right exactly if they begin and
end with them. -/
theorem caretsBeneath_carets_iff {covered : Nat → Prop} {first stop : Nat} (hfirst : 1 ≤ first)
    (hcovered : ∀ i < line.length, covered (i + 1) ↔ first ≤ i + 1 ∧ i + 1 < stop) :
    CaretsBeneath line covered (carets line m) ↔
      if first ≤ line.length ∧ first < stop then
        m.column - 1 = first - 1 ∧ first + max m.count 1 = min stop (line.length + 1)
      else m.count ≤ 1 := by
  have hbetween (i : Nat) : i < line.length ∧ covered (i + 1) ↔
      first - 1 ≤ i ∧ i < min (stop - 1) line.length := by
    constructor
    · rintro ⟨hi, hc⟩
      have := (hcovered i hi).1 hc
      omega
    · intro hi
      exact ⟨by omega, (hcovered i (by omega)).2 (by omega)⟩
  split
  case isTrue hsome =>
    have hexists : ∃ i < line.length, covered (i + 1) := ⟨first - 1, (hbetween _).2 (by omega)⟩
    constructor
    · intro h
      have hiff (i : Nat) := (getElem?_carets line m i).symm.trans
        ((h.beneath hexists i).trans (hbetween i))
      obtain ⟨hbegin, hend⟩ := eq_of_forall_between_iff (by omega) (by omega) hiff
      omega
    · rintro ⟨hcolumn, hcount⟩
      refine ⟨fun _ i => ?_, fun hnone => ?_⟩
      · rw [getElem?_carets, hbetween]
        omega
      · obtain ⟨i, hi, hc⟩ := hexists
        exact absurd hc (hnone i hi)
  case isFalse hempty =>
    have hnone (i : Nat) (hi : i < line.length) (hc : covered (i + 1)) : False := by
      have := (hbetween i).1 ⟨hi, hc⟩
      omega
    constructor
    · intro h
      have hcount := h.single hnone
      rw [count_carets] at hcount
      omega
    · refine fun hcount => ⟨fun ⟨i, hi, hc⟩ => (hnone i hi hc).elim, fun _ => ?_⟩
      rw [count_carets]
      omega

/-- Under the first covered line and under those between it and the last one the carets are
right. -/
theorem caretsBeneath_marker_iff (hstart : span.start.IsIn text) (hstop : span.stop.IsIn text)
    (hbefore : span.start.Before span.stop) (hline : IsLine text.toList n line)
    (hhead : n = span.start.line → n < span.stop.line →
      head = line.length + 1 - span.start.column)
    (hmarker : marker? span head n line.length = some m) :
    CaretsBeneath line (Covers text span n) (carets line m) ↔ (n = span.stop.line →
      if span.start.line = span.stop.line then
        span.stop.column ≤ max line.length span.start.column + 1
      else span.stop.column = 1) := by
  have hone := hstart.one_le
  have hone' := hstop.one_le
  have horder : span.start.line ≤ span.stop.line := by
    unfold Position.Before at hbefore
    omega
  obtain ⟨hfrom, hto⟩ := marker?_eq_some hmarker
  have hfirst : 1 ≤ firstColumn span n := by
    unfold firstColumn
    split <;> omega
  rw [caretsBeneath_carets_iff hfirst fun i hi =>
    covers_iff_columns hstart hstop hfrom hto hline hi]
  unfold Position.Before at hbefore
  unfold marker? at hmarker
  unfold firstColumn endColumn
  split_ifs at hmarker with hsame hn hout hn hn' <;> obtain rfl := Option.some.inj hmarker <;>
    dsimp only
  · -- the only line
    rw [if_pos hn, if_pos (hn.trans hsame), if_pos hsame]
    split <;> omega
  · -- the first of several
    rw [if_pos hn, if_neg (by omega : n ≠ span.stop.line), hhead hn (by omega)]
    split <;> omega
  · -- the last of several
    rw [if_neg hn, if_pos hn', if_neg hsame]
    split <;> omega
  · -- a line between them
    rw [if_neg hn, if_neg hn']
    split <;> omega

end Carets

section Sizes

theorem length_toList_le (text : String) : text.toList.length ≤ text.utf8ByteSize := by
  rw [← String.utf8Len_toList]
  exact Position.length_le_utf8Len text.toList

theorem IsLine.length_le (h : IsLine text.toList n line) : line.length ≤ text.utf8ByteSize := by
  obtain ⟨before, returns, rest, htext, -⟩ := h
  refine le_trans ?_ (length_toList_le text)
  rw [htext]
  simp only [List.length_append]
  omega

theorem lineLength_eq (hsize : text.utf8ByteSize < 2 ^ 32) (h : line? text.toList n = some line) :
    lineLength text.toList n = line.length := by
  rw [lineLength, h]
  exact word_eq_self ((isLine_of_line? h).length_le.trans_lt hsize)

theorem lineCount_le (text : String) : lineCount text.toList ≤ text.utf8ByteSize + 1 := by
  rw [lineCount_eq]
  exact Nat.add_le_add_right (List.count_le_length.trans (length_toList_le text)) 1

theorem line_le_lineCount {p : Position} (h : p.IsIn text) : p.line ≤ lineCount text.toList := by
  obtain ⟨before, hbefore, rfl⟩ := h
  rw [lineCount_eq, Nat.add_comm]
  exact Nat.add_le_add_left (hbefore.sublist.count_le _) 1

/-- Of the carets of a frame only those under the last covered line can be wrong. -/
theorem caretsBeneath_shown_iff (hsize : text.utf8ByteSize + 1 < 2 ^ 32)
    (hstart : span.start.IsIn text) (hstop : span.stop.IsIn text)
    (hbefore : span.start.Before span.stop)
    (hhead : headCount? .wrapping text.toList span = some head)
    (hline : line? text.toList n = some line)
    (hmarker : marker? span head n (word line.length) = some m) :
    CaretsBeneath line (Covers text span n) (carets line m) ↔ (n = span.stop.line →
      if span.start.line = span.stop.line then
        span.stop.column ≤ max (lineLength text.toList span.start.line) span.start.column + 1
      else span.stop.column = 1) := by
  have hshown := isLine_of_line? hline
  have hlength := hshown.length_le
  have hlineLength := lineLength_eq (by omega) hline
  rw [word_eq_self (by omega)] at hmarker
  have hhead' : n = span.start.line → n < span.stop.line →
      head = line.length + 1 - span.start.column := by
    rintro rfl hlt
    rw [headCount?, if_pos hlt, hlineLength] at hhead
    obtain rfl := Option.some.inj hhead
    rw [word_eq_self (by omega)]
  rw [caretsBeneath_marker_iff hstart hstop hbefore hshown hhead' hmarker]
  refine forall_congr' fun hn => ?_
  split
  · rename_i hsame
    rw [hsame, ← hn, hlineLength]
  · rfl

end Sizes

/-- In a text that is not too long for its lines to be counted, the carets under each line that a
span covers stand beneath its covered characters in two cases only: the span is within one line and
does not reach past the characters that are shown (or covers only one past them), or it goes over
several lines and ends in the first column of the last one. -/
theorem carets_beneath_iff (text : String) (span : Span) (hsize : text.utf8ByteSize + 4 < 2 ^ 32)
    (hstart : span.start.IsIn text) (hstop : span.stop.IsIn text)
    (hspan : span.start.offset < span.stop.offset) :
    let top := max 1 (span.start.line - 2)
    let last := min (span.stop.line + 3) (lineCount text.toList)
    Shows text.toList span (toString last).length
        (fun n line => CaretsBeneath line (Covers text span n))
        (List.range' top (last + 1 - top)) (splitLines (codeFrame text span).toList) ↔
      if span.start.line = span.stop.line then
        span.stop.column ≤ max (lineLength text.toList span.start.line) span.start.column + 1
      else span.stop.column = 1 := by
  intro top last
  have hbefore := (hstart.offset_lt_iff hstop).1 hspan
  have horder : span.start.line ≤ span.stop.line := by
    unfold Position.Before at hbefore
    omega
  have hpos := hstart.one_le.1
  have hcount := lineCount_le text
  have hstopLine := line_le_lineCount hstop
  obtain ⟨head, hhead, hframe⟩ := frame?_wrapping text.toList span (by omega)
  rw [word_eq_self (by omega), word_eq_self (by omega)] at hframe
  rw [shows_codeFrame_iff hframe (Nat.le_max_left _ _) (by omega) (Nat.min_le_right _ _)]
  constructor
  · intro h
    obtain ⟨line, hline, -⟩ := exists_isLine (hpos.trans horder) hstopLine
    have hcovered : marker? span head span.stop.line (word line.length) ≠ none := by
      rw [Ne, marker?_eq_none_iff]
      omega
    obtain ⟨m, hmarker⟩ := Option.ne_none_iff_exists'.1 hcovered
    exact (caretsBeneath_shown_iff (by omega) hstart hstop hbefore hhead hline hmarker).1
      (h _ (by omega) (by omega) _ _ hline hmarker) rfl
  · intro h n _ _ line m hline hmarker
    exact (caretsBeneath_shown_iff (by omega) hstart hstop hbefore hhead hline hmarker).2
      fun _ => h

theorem carets_beneath_iff_line_break :
    let text := "é +\n\tb\n"
    let span : Span := ⟨⟨0, 1, 1⟩, ⟨8, 3, 1⟩⟩
    (text.utf8ByteSize + 4 < 2 ^ 32 ∧ span.start.IsIn text ∧ span.stop.IsIn text ∧
      span.start.offset < span.stop.offset) ∧
    codeFrame text span = "> 1 | é +\n    | ^^^\n> 2 | \tb\n    | ^^\n> 3 |\n    | ^" ∧
    Shows text.toList span 1 (fun n line => CaretsBeneath line (Covers text span n)) [1, 2, 3]
      (splitLines (codeFrame text span).toList) := by
  have hsize : "é +\n\tb\n".utf8ByteSize + 4 < 2 ^ 32 := by decide
  have hstart : (⟨0, 1, 1⟩ : Position).IsIn "é +\n\tb\n" := ⟨[], List.nil_prefix, rfl⟩
  have hstop : (⟨8, 3, 1⟩ : Position).IsIn "é +\n\tb\n" :=
    ⟨"é +\n\tb\n".toList, List.prefix_refl _, by decide⟩
  have hshows := (carets_beneath_iff "é +\n\tb\n" ⟨⟨0, 1, 1⟩, ⟨8, 3, 1⟩⟩ hsize hstart hstop
    (by decide)).2 rfl
  exact ⟨⟨hsize, hstart, hstop, by decide⟩, by decide, hshows⟩

/-- The last of several lines has a caret beneath the column that the span does not cover. -/
theorem caret_past_end :
    let text := "a\nb"
    let span : Span := ⟨⟨0, 1, 1⟩, ⟨3, 2, 2⟩⟩
    (span.start.IsIn text ∧ span.stop.IsIn text ∧ span.start.offset < span.stop.offset) ∧
    codeFrame text span = "> 1 | a\n    | ^\n> 2 | b\n    | ^^" ∧
    ¬ Shows text.toList span 1 (fun n line => CaretsBeneath line (Covers text span n)) [1, 2]
      (splitLines (codeFrame text span).toList) := by
  have hstart : (⟨0, 1, 1⟩ : Position).IsIn "a\nb" := ⟨[], List.nil_prefix, rfl⟩
  have hstop : (⟨3, 2, 2⟩ : Position).IsIn "a\nb" := ⟨"a\nb".toList, List.prefix_refl _, by decide⟩
  have hmiddle : (⟨2, 2, 1⟩ : Position).IsIn "a\nb" :=
    ⟨['a', '\n'], ⟨['b'], rfl⟩, by decide⟩
  refine ⟨⟨hstart, hstop, by decide⟩, by decide, fun h => ?_⟩
  have hframe : frame? .wrapping "a\nb".toList ⟨⟨0, 1, 1⟩, ⟨3, 2, 2⟩⟩ =
      some (frameRows "a\nb".toList ⟨⟨0, 1, 1⟩, ⟨3, 2, 2⟩⟩ 1 1 2) := by decide
  have hcarets := (shows_codeFrame_iff hframe (by decide) (by decide) (by decide)).1 h
    2 (by decide) (by decide) ['b'] ⟨0, 2⟩ rfl rfl
  have hcovered : Covers "a\nb" ⟨⟨0, 1, 1⟩, ⟨3, 2, 2⟩⟩ 2 1 :=
    ⟨_, hmiddle, rfl, rfl, by decide, by decide⟩
  exact absurd ((hcarets.beneath ⟨0, by decide, hcovered⟩ 1).1 rfl).1 (by decide)

end ExprLang.Source
