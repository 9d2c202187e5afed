import ExprLang.Proofs.Decimals
import ExprLang.Proofs.Lines
import ExprLang.Source.Frame

/-!
Rows of code frames. A frame shows the lines around a span one after the other, each with its number
in a gutter of the same width. The covered lines are marked, and each of them has a row of carets
that begins with a gutter of that width as well. The number of the last line is the smaller of two
words, of which one is a sum that may wrap.
-/
namespace ExprLang.Source

/-- The row of a line: a mark, the number of the line at the right of its gutter, and its text. -/
def IsTextRow (mark : Char) (width n : Nat) (line row : List Char) : Prop :=
  ∃ blanks digits, digits = (toString n).toList ∧ (∀ c ∈ blanks, c = ' ') ∧
    (blanks ++ digits).length = width ∧
    row = mark :: ' ' :: (blanks ++ digits) ++ [' ', '|'] ++ if line = [] then [] else ' ' :: line

/-- What stands before the carets of a row: as many characters as before the text of a line. -/
def caretMargin (width : Nat) : List Char :=
  ' ' :: ' ' :: List.replicate width ' ' ++ [' ', '|'] ++ [' ']

/-- The rows show the numbered lines of a text in order. Those that the span covers are marked and
have a row of carets below, of which something holds together with the number and the line. -/
inductive Shows (text : List Char) (span : Span) (width : Nat)
    (P : Nat → List Char → List Char → Prop) : List Nat → List (List Char) → Prop
  | nil : Shows text span width P [] []
  | plain {n : Nat} {ns : List Nat} {line row : List Char} {rows : List (List Char)} :
      n < span.start.line ∨ span.stop.line < n → IsLine text n line →
      IsTextRow ' ' width n line row → Shows text span width P ns rows →
      Shows text span width P (n :: ns) (row :: rows)
  | marked {n : Nat} {ns : List Nat} {line row carets : List Char} {rows : List (List Char)} :
      span.start.line ≤ n → n ≤ span.stop.line → IsLine text n line →
      IsTextRow '>' width n line row → P n line carets → Shows text span width P ns rows →
      Shows text span width P (n :: ns) (row :: (caretMargin width ++ carets) :: rows)

/-- Carets with blanks before them that are as wide as the text above, for a tab is as wide as the
tab above it. -/
def StandsUnder (line carets : List Char) : Prop :=
  ∃ k m, 0 < m ∧
    carets = (line.take k).map (fun c => if c = '\t' then '\t' else ' ') ++ List.replicate m '^'

/-- A frame shows the lines of a text from two before a span to the one with this number, as far as
the text goes. It is empty if there are none. -/
def ShowsUpTo (text : String) (span : Span) (bottom : Nat) : Prop :=
  let top := max 1 (span.start.line - 2)
  let last := min bottom (lineCount text.toList)
  if top ≤ last then
    Shows text.toList span (toString last).length (fun _ => StandsUnder)
      (List.range' top (last + 1 - top)) (splitLines (codeFrame text span).toList)
  else codeFrame text span = ""

variable {text line line' row : List Char} {rows rows' : List (List Char)} {span : Span}
  {mark mark' : Char} {width width' n n' head top last last' : Nat} {m : Marker} {ns : List Nat}
  {P P' : Nat → List Char → List Char → Prop}

section Rows

theorem length_toString_le_of_le (h : n ≤ n') : (toString n).length ≤ (toString n').length := by
  have hlt := (Nat.length_repr_le_iff (n := n') Nat.length_repr_pos).1 (Nat.le_refl _)
  exact (Nat.length_repr_le_iff Nat.length_repr_pos).2 (h.trans_lt hlt)

theorem gutter_eq (h : (toString n).length ≤ width) :
    ∃ blanks digits, digits = (toString n).toList ∧ (∀ c ∈ blanks, c = ' ') ∧
      (blanks ++ digits).length = width ∧
      gutter width n = ' ' :: (blanks ++ digits) ++ [' ', '|'] := by
  refine ⟨_, _, rfl, fun c hc => List.eq_of_mem_replicate hc, ?_, rfl⟩
  rw [List.length_append, List.length_replicate, String.length_toList]
  exact Nat.sub_add_cancel h

theorem isTextRow_textRow (mark : Char) (line : List Char) (h : (toString n).length ≤ width) :
    IsTextRow mark width n line (mark :: textRow width n line) := by
  obtain ⟨blanks, digits, hdigits, hblanks, hlength, hgutter⟩ := gutter_eq h
  refine ⟨blanks, digits, hdigits, hblanks, hlength, ?_⟩
  simp only [textRow, hgutter, List.isEmpty_iff, List.cons_append]

/-- The text of a row begins where carets can stand below it. -/
theorem IsTextRow.drop_eq (h : IsTextRow mark width n line row) :
    row.drop (caretMargin width).length = line := by
  obtain ⟨blanks, digits, -, -, hlength, rfl⟩ := h
  have hmargin : (mark :: ' ' :: (blanks ++ digits) ++ [' ', '|']).length + 1 =
      (caretMargin width).length := by
    simp only [caretMargin, List.length_append, List.length_cons, List.length_nil,
      List.length_replicate] at hlength ⊢
    omega
  rw [← hmargin, ← List.drop_drop, List.drop_left]
  split
  · rename_i hempty
    rw [hempty, List.drop_nil]
  · rfl

theorem caretRow_eq (line : List Char) (m : Marker) (h : (toString n).length ≤ width) :
    ' ' :: caretRow width n line m = caretMargin width ++ carets line m := by
  obtain ⟨blanks, digits, rfl, hblanks, hlength, hgutter⟩ := gutter_eq h
  have hnumber : blankDigits (blanks ++ (toString n).toList) = List.replicate width ' ' := by
    rw [← hlength]
    refine List.map_eq_replicate_iff.2 fun c hc => ?_
    rcases List.mem_append.1 hc with hc | hc
    · rw [hblanks c hc]
      rfl
    · exact if_pos (isDigit_of_mem_toString hc)
  have hblank : blankDigits (gutter width n) = ' ' :: List.replicate width ' ' ++ [' ', '|'] := by
    rw [hgutter, ← hnumber]
    exact List.map_append
  rw [caretRow, hblank, caretMargin]
  simp only [List.cons_append, List.append_assoc, List.nil_append]

theorem newline_not_mem_textRow (hline : '\n' ∉ line) (h : (toString n).length ≤ width) :
    '\n' ∉ textRow width n line := by
  obtain ⟨blanks, digits, hdigits, hblanks, -, hgutter⟩ := gutter_eq h
  have hnumber : '\n' ∉ digits := fun hc =>
    absurd (isDigit_of_mem_toString (hdigits ▸ hc)) (by decide)
  have hblank : '\n' ∉ blanks := fun hc => absurd (hblanks _ hc) (by decide)
  rw [textRow, hgutter]
  split <;> simp [hnumber, hblank, hline]

theorem eq_of_mem_indent {c : Char} {column : Nat} (h : c ∈ indent line column) :
    c = '\t' ∨ c = ' ' := by
  obtain ⟨d, -, rfl⟩ := List.mem_map.1 h
  split
  · exact .inl rfl
  · exact .inr rfl

theorem newline_not_mem_caretRow (line : List Char) (m : Marker)
    (h : (toString n).length ≤ width) : '\n' ∉ ' ' :: caretRow width n line m := by
  have hindent : '\n' ∉ indent line m.column := fun hc => absurd (eq_of_mem_indent hc) (by decide)
  rw [caretRow_eq line m h, caretMargin, carets]
  simp [List.mem_replicate, hindent]

end Rows

section Lines

theorem marker?_eq_none_iff (span : Span) (head n length : Nat) :
    marker? span head n length = none ↔ n < span.start.line ∨ span.stop.line < n := by
  unfold marker?
  split_ifs <;> simp <;> omega

theorem marker?_eq_some {length : Nat} (h : marker? span head n length = some m) :
    span.start.line ≤ n ∧ n ≤ span.stop.line := by
  have hsome : marker? span head n length ≠ none := by rw [h]; nofun
  rw [Ne, marker?_eq_none_iff] at hsome
  omega

theorem shows_plain_iff (hn : n < span.start.line ∨ span.stop.line < n)
    (hline : IsLine text n line) (hwidth : (toString n).length ≤ width) :
    Shows text span width P (n :: ns) ((' ' :: textRow width n line) :: rows) ↔
      Shows text span width P ns rows := by
  refine ⟨fun h => ?_, .plain hn hline (isTextRow_textRow ' ' line hwidth)⟩
  cases h with
  | plain _ _ _ hrows => exact hrows
  | marked hstart hstop => omega

/-- The line and the carets can be read off their rows. -/
theorem shows_marked_iff (hstart : span.start.line ≤ n)
    (hstop : n ≤ span.stop.line) (hline : IsLine text n line)
    (hwidth : (toString n).length ≤ width) :
    Shows text span width P (n :: ns)
        (('>' :: textRow width n line) :: (' ' :: caretRow width n line m) :: rows) ↔
      P n line (carets line m) ∧ Shows text span width P ns rows := by
  have hrow := isTextRow_textRow '>' line hwidth
  rw [caretRow_eq line m hwidth]
  refine ⟨fun h => ?_, fun h => .marked hstart hstop hline hrow h.1 h.2⟩
  generalize hcarets : caretMargin width ++ carets line m = row at h
  cases h with
  | plain hn => omega
  | marked _ _ _ hrow' hP hrows =>
    obtain rfl := hrow'.drop_eq.symm.trans hrow.drop_eq
    exact ⟨List.append_cancel_left hcarets ▸ hP, hrows⟩

/-- A frame shows its lines exactly if what is asked of the carets holds of those it has. -/
theorem shows_lineRows_iff
    (hns : ∀ n ∈ ns, 1 ≤ n ∧ n ≤ lineCount text ∧ (toString n).length ≤ width) :
    Shows text span width P ns
        (ns.flatMap fun n => lineRows span head width n ((line? text n).getD [])) ↔
      ∀ n ∈ ns, ∀ line m, line? text n = some line →
        marker? span head n (word line.length) = some m → P n line (carets line m) := by
  induction ns with
  | nil => exact iff_of_true .nil (List.forall_mem_nil _)
  | cons n ns ih =>
    obtain ⟨⟨hpos, hle, hwidth⟩, hns⟩ := List.forall_mem_cons.1 hns
    obtain ⟨line, hline, hshown⟩ := exists_isLine hpos hle
    rw [List.flatMap_cons, List.forall_mem_cons, ← ih hns, hline, Option.getD_some, lineRows]
    cases hmarker : marker? span head n (word line.length) with
    | none =>
      have hn := (marker?_eq_none_iff span head n _).1 hmarker
      rw [List.singleton_append, shows_plain_iff hn hshown hwidth]
      refine (and_iff_right fun line' m hline' hm => ?_).symm
      obtain rfl := Option.some.inj hline'
      rw [hmarker] at hm
      cases hm
    | some m =>
      obtain ⟨hstart, hstop⟩ := marker?_eq_some hmarker
      rw [List.cons_append, List.singleton_append,
        shows_marked_iff hstart hstop hshown hwidth]
      refine and_congr_left fun _ => ⟨fun hP line' m' hline' hm' => ?_, fun h => h _ _ rfl hmarker⟩
      obtain rfl := Option.some.inj hline'
      rw [hmarker] at hm'
      exact Option.some.inj hm' ▸ hP

theorem newline_not_mem_lineRows (hline : '\n' ∉ line) (hwidth : (toString n).length ≤ width) :
    ∀ row ∈ lineRows span head width n line, '\n' ∉ row := by
  have htext := newline_not_mem_textRow hline hwidth
  rw [lineRows]
  split
  · exact List.forall_mem_singleton.2 (by simp [htext])
  · refine List.forall_mem_cons.2 ⟨by simp [htext], List.forall_mem_singleton.2 ?_⟩
    exact newline_not_mem_caretRow line _ hwidth

end Lines

section Frames

theorem word_eq_self (h : n < 2 ^ 32) : word n = n := Nat.mod_eq_of_lt h

theorem splitLines_codeFrame {text : String}
    (h : frame? .wrapping text.toList span = some rows) (hne : rows ≠ [])
    (hrows : ∀ row ∈ rows, '\n' ∉ row) : splitLines (codeFrame text span).toList = rows := by
  have hlists : (rows.map String.ofList).map String.toList = rows := by
    rw [List.map_map]
    exact List.map_id'' (fun row => String.toList_ofList) rows
  rw [codeFrame, h, Option.getD_some, String.toList_intercalate, hlists]
  exact splitLines_intercalate hrows hne

theorem mem_shown {last : Nat} : n ∈ List.range' top (last + 1 - top) ↔ top ≤ n ∧ n ≤ last := by
  rw [List.mem_range'_1]
  omega

theorem shown_eq_nil (h : last < top) : List.range' top (last + 1 - top) = [] :=
  List.range'_eq_nil_iff.2 (Nat.sub_eq_zero_of_le h)

/-- Line by line, a frame shows what it is made of. -/
theorem shows_codeFrame_iff {text : String}
    (h : frame? .wrapping text.toList span = some (frameRows text.toList span head top last))
    (htop : 1 ≤ top) (htopLast : top ≤ last) (hlast : last ≤ lineCount text.toList) :
    Shows text.toList span (toString last).length P (List.range' top (last + 1 - top))
        (splitLines (codeFrame text span).toList) ↔
      ∀ n, top ≤ n → n ≤ last → ∀ line m, line? text.toList n = some line →
        marker? span head n (word line.length) = some m → P n line (carets line m) := by
  have hns : ∀ n ∈ List.range' top (last + 1 - top),
      1 ≤ n ∧ n ≤ lineCount text.toList ∧ (toString n).length ≤ (toString last).length := by
    intro n hn
    obtain ⟨htopN, hnLast⟩ := mem_shown.1 hn
    exact ⟨htop.trans htopN, hnLast.trans hlast, length_toString_le_of_le hnLast⟩
  have hrows : ∀ row ∈ frameRows text.toList span head top last, '\n' ∉ row := by
    intro row hrow
    obtain ⟨n, hn, hrow⟩ := List.mem_flatMap.1 hrow
    obtain ⟨hpos, hle, hwidth⟩ := hns n hn
    obtain ⟨line, hline, -, -, -, -, -, -, hnewline, -⟩ := exists_isLine hpos hle
    rw [hline] at hrow
    exact newline_not_mem_lineRows hnewline hwidth row hrow
  have hne : frameRows text.toList span head top last ≠ [] := by
    have hfirst : top ∈ List.range' top (last + 1 - top) := mem_shown.2 ⟨Nat.le_refl _, htopLast⟩
    intro hnil
    have hempty := List.flatMap_eq_nil_iff.1 hnil top hfirst
    unfold lineRows at hempty
    split at hempty <;> cases hempty
  rw [splitLines_codeFrame h hne hrows, frameRows, shows_lineRows_iff hns]
  simp only [mem_shown, and_imp]

theorem standsUnder_carets (line : List Char) (m : Marker) : StandsUnder line (carets line m) :=
  ⟨m.column - 1, max m.count 1, Nat.le_max_right _ _, rfl⟩

/-- Sums that wrap are never refused. -/
theorem frame?_wrapping (text : List Char) (span : Span) (hstart : span.start.line < 2 ^ 32) :
    ∃ head, headCount? .wrapping text span = some head ∧
      frame? .wrapping text span = some (frameRows text span head (max 1 (span.start.line - 2))
        (min (word (span.stop.line + 3)) (word (lineCount text)))) := by
  have hhead : ∃ head, headCount? .wrapping text span = some head := by
    unfold headCount?
    split
    · exact ⟨_, rfl⟩
    · exact ⟨_, rfl⟩
  obtain ⟨head, hhead⟩ := hhead
  have htop : word (span.start.line - (linesAbove + 1) + 1) = max 1 (span.start.line - 2) := by
    rw [word_eq_self (by omega)]
    change span.start.line - 3 + 1 = max 1 (span.start.line - 2)
    omega
  refine ⟨head, hhead, ?_⟩
  rw [← htop, frame?, hhead]
  rfl

/-- The frame of any span shows the lines up to the number that is left of its sum, or up to what is
left of the number of lines. -/
theorem showsUpTo_words (text : String) (span : Span) (hstart : span.start.line < 2 ^ 32) :
    ShowsUpTo text span (min (word (span.stop.line + 3)) (word (lineCount text.toList))) := by
  obtain ⟨head, -, hframe⟩ := frame?_wrapping text.toList span hstart
  have hle : word (lineCount text.toList) ≤ lineCount text.toList := Nat.mod_le _ _
  unfold ShowsUpTo
  rw [Nat.min_assoc, Nat.min_eq_left hle]
  dsimp only
  split
  case isTrue htop =>
    exact (shows_codeFrame_iff hframe (Nat.le_max_left _ _) htop
      ((Nat.min_le_right _ _).trans hle)).2 fun n _ _ line m _ _ => standsUnder_carets line m
  case isFalse htop =>
    rw [codeFrame, hframe, frameRows, shown_eq_nil (Nat.lt_of_not_ge htop)]
    rfl

theorem ShowsUpTo.shows {text : String} {bottom : Nat} (h : ShowsUpTo text span bottom) :
    let top := max 1 (span.start.line - 2)
    let last := min bottom (lineCount text.toList)
    top ≤ last → Shows text.toList span (toString last).length (fun _ => StandsUnder)
      (List.range' top (last + 1 - top)) (splitLines (codeFrame text span).toList) :=
  fun htop => (if_pos htop).mp h

theorem ShowsUpTo.eq_empty {text : String} {bottom : Nat} (h : ShowsUpTo text span bottom)
    (hnone : min bottom (lineCount text.toList) < max 1 (span.start.line - 2)) :
    codeFrame text span = "" := (if_neg hnone.not_ge).mp h

/-- What is shown has a row for each line, and for each covered line one more. -/
theorem Shows.length_rows (h : Shows text span width P ns rows) :
    rows.length = ns.length + ns.countP fun n => span.start.line ≤ n ∧ n ≤ span.stop.line := by
  induction h with
  | nil => rfl
  | plain hn _ _ _ ih =>
    rw [List.countP_cons_of_neg (by simp; omega), List.length_cons, List.length_cons, ih]
    omega
  | marked hstart hstop _ _ _ _ ih =>
    rw [List.countP_cons_of_pos (by simp [hstart, hstop])]
    simp only [List.length_cons, ih]
    omega

theorem Shows.length_lt (h : Shows text span width P (List.range' top (last + 1 - top)) rows)
    (h' : Shows text span width' P' (List.range' top (last' + 1 - top)) rows')
    (htop : top ≤ last') (hlast : last < last') : rows.length < rows'.length := by
  have hlines : (List.range' top (last + 1 - top)).Sublist (List.range' top (last' + 1 - top)) :=
    List.range'_sublist_right.2 (by omega)
  have hcovered := hlines.countP_le
    (p := fun n => decide (span.start.line ≤ n ∧ n ≤ span.stop.line))
  rw [h.length_rows, h'.length_rows, List.length_range', List.length_range']
  omega

theorem Shows.two_le_length (h : Shows text span width P ns rows) (hn : n ∈ ns)
    (hstart : span.start.line ≤ n) (hstop : n ≤ span.stop.line) : 2 ≤ rows.length := by
  have hlines := List.length_pos_of_mem hn
  have hcovered : 0 < ns.countP fun n => span.start.line ≤ n ∧ n ≤ span.stop.line :=
    List.countP_pos_iff.2 ⟨n, hn, by simp [hstart, hstop]⟩
  rw [h.length_rows]
  omega

/-- A frame that ends too early does not have the rows of all its lines. -/
theorem ShowsUpTo.not_shows {text : String} {bottom : Nat} (h : ShowsUpTo text span bottom)
    (hlast : min bottom (lineCount text.toList) < last) (hpos : 1 ≤ span.start.line)
    (horder : span.start.line ≤ span.stop.line) (hcovered : span.start.line ≤ last) :
    let top := max 1 (span.start.line - 2)
    ¬ Shows text.toList span width P (List.range' top (last + 1 - top))
      (splitLines (codeFrame text span).toList) := by
  intro top hshows
  rcases Nat.lt_or_ge (min bottom (lineCount text.toList)) top with hnone | htop
  · -- An empty frame is a single row, too few for a covered line.
    have hrows := hshows.two_le_length (mem_shown.2 (by omega)) (Nat.le_refl _) horder
    rw [h.eq_empty hnone] at hrows
    exact absurd hrows (by decide)
  · exact ((h.shows htop).length_lt hshows (htop.trans hlast.le) hlast).false

/-- A frame shows all the lines around its span exactly if neither the number of the third line
below it nor what is left of the number of lines falls short. -/
theorem shows_around_iff (text : String) (span : Span) (hpos : 1 ≤ span.start.line)
    (horder : span.start.line ≤ span.stop.line) (hle : span.stop.line ≤ lineCount text.toList)
    (hstop : span.stop.line < 2 ^ 32) :
    let top := max 1 (span.start.line - 2)
    let last := min (span.stop.line + 3) (lineCount text.toList)
    Shows text.toList span (toString last).length (fun _ => StandsUnder)
        (List.range' top (last + 1 - top)) (splitLines (codeFrame text span).toList) ↔
      span.stop.line + 3 < 2 ^ 32 ∧
        (lineCount text.toList < 2 ^ 32 ∨ span.stop.line + 3 ≤ word (lineCount text.toList)) := by
  intro top last
  have hshown := showsUpTo_words text span (by omega)
  have hlast : min (min (word (span.stop.line + 3)) (word (lineCount text.toList)))
      (lineCount text.toList) = last ↔ span.stop.line + 3 < 2 ^ 32 ∧
        (lineCount text.toList < 2 ^ 32 ∨ span.stop.line + 3 ≤ word (lineCount text.toList)) := by
    unfold word wordLimit
    omega
  rw [← hlast]
  constructor
  · intro h
    by_contra hne
    have hle' : word (span.stop.line + 3) ≤ span.stop.line + 3 := Nat.mod_le _ _
    exact hshown.not_shows (by omega) hpos horder (by omega) h
  · intro heq
    have hshows := hshown.shows
    rw [heq] at hshows
    exact hshows (by omega)

/-- A span in the last but one line of this many newlines has no rows, for its sum wraps to zero. -/
theorem codeFrame_newlines (span : Span) (h : n + 3 = 2 ^ 32) (hstart : span.start.line = n)
    (hstop : span.stop.line = n) :
    let text := String.ofList (List.replicate n '\n')
    lineCount text.toList = n + 1 ∧ codeFrame text span = "" ∧
    ¬ Shows text.toList span (toString (n + 1)).length (fun _ => StandsUnder)
      (List.range' (n - 2) 4) (splitLines (codeFrame text span).toList) := by
  intro text
  have hcount : lineCount text.toList = n + 1 := by
    rw [String.toList_ofList, lineCount_eq, List.count_replicate_self]
  have hshown := showsUpTo_words text span (by omega)
  have hiff := shows_around_iff text span (by omega) (by omega) (by omega) (by omega)
  have htop : max 1 (n - 2) = n - 2 := by omega
  have hlast : min (n + 3) (n + 1) = n + 1 := by omega
  have hfour : n + 1 + 1 - (n - 2) = 4 := by omega
  dsimp only at hiff
  rw [hcount, hstart, hstop, htop, hlast, hfour] at hiff
  refine ⟨hcount, ?_, fun hshows => absurd (hiff.1 hshows).1 (by omega)⟩
  have hnone : min (min (word (n + 3)) (word (n + 1))) (n + 1) < max 1 (n - 2) := by
    rw [h]
    unfold word wordLimit
    omega
  refine hshown.eq_empty ?_
  rwa [hcount, hstart, hstop]

end Frames

/-- The frame of a span shows the lines around it one after the other, from two before it, each
once and in order, with its number at the right of a gutter as wide as the greatest of these
numbers. The lines that the span covers, and no others, are marked and have a row of carets below
them whose gutter is as wide, so that the columns stand one beneath the other. The last line is the
third one below the span or the last of the text, as it should be, exactly if the number of that
third line is a word and the number of lines does not wrap to less. -/
theorem frame_rows (text : String) (span : Span) (hstart : span.start.line < 2 ^ 32)
    (hstop : span.stop.line < 2 ^ 32) :
    let count := lineCount text.toList
    ShowsUpTo text span (min (word (span.stop.line + 3)) (word count)) ∧
    (1 ≤ span.start.line → span.start.line ≤ span.stop.line → span.stop.line ≤ count →
      let top := max 1 (span.start.line - 2)
      let last := min (span.stop.line + 3) count
      Shows text.toList span (toString last).length (fun _ => StandsUnder)
          (List.range' top (last + 1 - top)) (splitLines (codeFrame text span).toList) ↔
        span.stop.line + 3 < 2 ^ 32 ∧ (count < 2 ^ 32 ∨ span.stop.line + 3 ≤ word count)) :=
  ⟨showsUpTo_words text span hstart, fun hpos horder hle =>
    shows_around_iff text span hpos horder hle hstop⟩

theorem frame_rows_crlf :
    let text := "f(\r\n\r\n\tx +\n y)\n"
    let span : Span := ⟨⟨6, 3, 2⟩, ⟨12, 4, 3⟩⟩
    (span.start.line < 2 ^ 32 ∧ span.stop.line < 2 ^ 32 ∧ 1 ≤ span.start.line ∧
      span.start.line ≤ span.stop.line ∧ span.stop.line ≤ lineCount text.toList) ∧
    codeFrame text span =
      "  1 | f(\n  2 |\n> 3 | \tx +\n    | \t^^^\n> 4 |  y)\n    | ^^^\n  5 |" ∧
    Shows text.toList span 1 (fun _ => StandsUnder) [1, 2, 3, 4, 5]
      (splitLines (codeFrame text span).toList) := by
  have hcovered : 3 < 2 ^ 32 ∧ 4 < 2 ^ 32 ∧ 1 ≤ 3 ∧ 3 ≤ 4 ∧
    4 ≤ lineCount "f(\r\n\r\n\tx +\n y)\n".toList := by decide
  have ⟨hstart, hstop, hpos, horder, hle⟩ := hcovered
  have hrows := frame_rows "f(\r\n\r\n\tx +\n y)\n" ⟨⟨6, 3, 2⟩, ⟨12, 4, 3⟩⟩ hstart hstop
  exact ⟨hcovered, by decide, (hrows.2 hpos horder hle).2 (by decide)⟩

/-- Where the third line below a span has no number that is a word, although each line of the text
has one, no line is shown. -/
theorem frame_rows_lost :
    let text := String.ofList (List.replicate 4294967293 '\n')
    let span : Span := ⟨⟨4294967292, 4294967293, 1⟩, ⟨4294967292, 4294967293, 1⟩⟩
    (1 ≤ span.start.line ∧ span.start.line ≤ span.stop.line ∧
      span.stop.line ≤ lineCount text.toList ∧ lineCount text.toList = 4294967294) ∧
    codeFrame text span = "" ∧
    ¬ Shows text.toList span (toString 4294967294).length (fun _ => StandsUnder)
      [4294967291, 4294967292, 4294967293, 4294967294]
      (splitLines (codeFrame text span).toList) := by
  intro text span
  obtain ⟨hcount, hempty, hshows⟩ := codeFrame_newlines span (n := 4294967293) rfl rfl rfl
  refine ⟨⟨by decide, Nat.le_refl _, ?_, hcount⟩, hempty, hshows⟩
  rw [hcount]
  decide

end ExprLang.Source
