import ExprLang.Proofs.Frames

/-!
Sums of words in code frames. A frame is the same whether its sums wrap or are refused when they are
not words, as long as none is refused. This only happens to the number of the last line that may be
shown, and to the length of the first of several covered lines. When that number wraps the frame
ends with the second line of the text at the latest.
-/
namespace ExprLang.Source

variable {a b c head : Nat} {text : List Char} {span : Span} {rows : List (List Char)}
  {add add' : Addition}

namespace Addition

theorem checked_eq_some_iff : checked a b = some c ↔ a + b < 2 ^ 32 ∧ a + b = c := by
  unfold checked wordLimit
  split <;> simp <;> omega

theorem checked_ne_none_iff : checked a b ≠ none ↔ a + b < 2 ^ 32 := by
  simp [Option.ne_none_iff_exists', checked_eq_some_iff]

theorem wrapping_of_checked (h : checked a b = some c) : wrapping a b = some c := by
  obtain ⟨hlt, rfl⟩ := checked_eq_some_iff.1 h
  exact congrArg some (word_eq_self hlt)

end Addition

theorem headCount?_mono (hadd : ∀ a b c, add a b = some c → add' a b = some c)
    (h : headCount? add text span = some head) : headCount? add' text span = some head := by
  unfold headCount? at *
  split at h
  · rename_i hlt
    obtain ⟨sum, hsum, hhead⟩ := Option.map_eq_some_iff.1 h
    rw [if_pos hlt, hadd _ _ _ hsum, Option.map_some, hhead]
  · rename_i hle
    rw [if_neg hle, h]

theorem frame?_eq_some_iff :
    frame? add text span = some rows ↔
      ∃ bottom, add span.stop.line linesBelow = some bottom ∧
        ∃ head, headCount? add text span = some head ∧
          ∃ top, add (span.start.line - (linesAbove + 1)) 1 = some top ∧
            frameRows text span head top (min bottom (word (lineCount text))) = rows := by
  simp only [frame?, Option.bind_eq_bind, Option.bind_eq_some_iff, Option.some.injEq]

/-- A frame does not change when fewer sums are refused. -/
theorem frame?_mono (hadd : ∀ a b c, add a b = some c → add' a b = some c)
    (h : frame? add text span = some rows) : frame? add' text span = some rows := by
  obtain ⟨bottom, hbottom, head, hhead, top, htop, hrows⟩ := frame?_eq_some_iff.1 h
  exact frame?_eq_some_iff.2 ⟨bottom, hadd _ _ _ hbottom, head, headCount?_mono hadd hhead, top,
    hadd _ _ _ htop, hrows⟩

theorem headCount?_checked_ne_none_iff :
    headCount? .checked text span ≠ none ↔
      (span.start.line < span.stop.line → lineLength text span.start.line + 1 < 2 ^ 32) := by
  unfold headCount?
  split
  · rename_i hlt
    rw [Ne, Option.map_eq_none_iff, ← Ne, Addition.checked_ne_none_iff, imp_iff_right hlt]
  · rename_i hle
    exact iff_of_true nofun fun hlt => absurd hlt hle

theorem frame?_checked_ne_none_iff (hstart : span.start.line < 2 ^ 32) :
    frame? .checked text span ≠ none ↔ span.stop.line + 3 < 2 ^ 32 ∧
      (span.start.line < span.stop.line → lineLength text span.start.line + 1 < 2 ^ 32) := by
  have htop : Addition.checked (span.start.line - (linesAbove + 1)) 1 ≠ none :=
    Addition.checked_ne_none_iff.2 (by omega)
  have hbottom : Addition.checked span.stop.line linesBelow ≠ none ↔ span.stop.line + 3 < 2 ^ 32 :=
    Addition.checked_ne_none_iff
  rw [← hbottom, ← headCount?_checked_ne_none_iff]
  simp only [Option.ne_none_iff_exists', frame?_eq_some_iff] at htop ⊢
  obtain ⟨top, htop⟩ := htop
  constructor
  · rintro ⟨_, bottom, hbottom, head, hhead, -⟩
    exact ⟨⟨bottom, hbottom⟩, head, hhead⟩
  · rintro ⟨⟨bottom, hbottom⟩, head, hhead⟩
    exact ⟨_, bottom, hbottom, head, hhead, top, htop, rfl⟩

theorem ShowsUpTo.of_min {text : String} {bottom : Nat}
    (h : ShowsUpTo text span (min bottom (lineCount text.toList))) :
    ShowsUpTo text span bottom := by
  unfold ShowsUpTo at *
  rwa [Nat.min_assoc, Nat.min_self] at h

/-- Where no sum of a frame is refused the frame is the one whose sums wrap, and it shows the lines
up to the third below the span. Where the number of that line is no word all lines after the second
are dropped, if not more. Differences need no such care, for they end at zero. -/
theorem frame_sums_fit_iff (text : String) (span : Span) (hstart : span.start.line < 2 ^ 32)
    (hstop : span.stop.line < 2 ^ 32) :
    (frame? .checked text.toList span ≠ none ↔ span.stop.line + 3 < 2 ^ 32 ∧
      (span.start.line < span.stop.line →
        lineLength text.toList span.start.line + 1 < 2 ^ 32)) ∧
    (∀ rows, frame? .checked text.toList span = some rows →
      codeFrame text span = "\n".intercalate (rows.map String.ofList)) ∧
    (lineCount text.toList < 2 ^ 32 →
      ShowsUpTo text span
        (if span.stop.line + 3 < 2 ^ 32 then span.stop.line + 3
          else span.stop.line + 3 - 2 ^ 32)) := by
  refine ⟨frame?_checked_ne_none_iff hstart, fun rows h => ?_, fun hcount => ?_⟩
  · rw [codeFrame, frame?_mono (fun _ _ _ => Addition.wrapping_of_checked) h, Option.getD_some]
  · have hword : word (span.stop.line + 3) =
        if span.stop.line + 3 < 2 ^ 32 then span.stop.line + 3
          else span.stop.line + 3 - 2 ^ 32 := by
      split
      · exact word_eq_self ‹_›
      · change (span.stop.line + 3) % 2 ^ 32 = _
        omega
    have hshown := showsUpTo_words text span hstart
    rw [word_eq_self hcount, hword] at hshown
    exact hshown.of_min

theorem frame_sums_fit_iff_far :
    let text := "a\nb\nc"
    let span : Span := ⟨⟨0, 1, 1⟩, ⟨4, 4294967292, 1⟩⟩
    (span.start.line < 2 ^ 32 ∧ span.stop.line < 2 ^ 32) ∧
    frame? .checked text.toList span ≠ none ∧ ShowsUpTo text span 4294967295 := by
  have hstart : 1 < 2 ^ 32 := by decide
  have hstop : 4294967292 < 2 ^ 32 := by decide
  obtain ⟨hfit, -, hshows⟩ :=
    frame_sums_fit_iff "a\nb\nc" ⟨⟨0, 1, 1⟩, ⟨4, 4294967292, 1⟩⟩ hstart hstop
  exact ⟨⟨hstart, hstop⟩, hfit.2 (by decide), hshows (by decide)⟩

/-- Where a span ends one line later no line of the text is shown. -/
theorem lines_dropped :
    let text := "a\nb\nc"
    let span : Span := ⟨⟨0, 1, 1⟩, ⟨4, 4294967293, 1⟩⟩
    lineCount text.toList = 3 ∧ frame? .checked text.toList span = none ∧
      codeFrame text span = "" := by
  decide

end ExprLang.Source
