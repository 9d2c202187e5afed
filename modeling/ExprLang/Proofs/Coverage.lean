import ExprLang.Proofs.Lexing.Pieces

/-!
Tokens lie in their text one after another, at places that can be counted off the text, whatever
the errors are; without errors they and the blanks around them are all of the text.
-/
namespace ExprLang

open Position (after)

namespace Lexer

/-- What lies before each token and after the one before it. -/
def gapSpans (p : Position) : List Token → List Span
  | [] => []
  | t :: ts => ⟨p, t.span.start⟩ :: gapSpans t.span.stop ts

/-- The tokens of a text in their order, each at a place of the text. -/
structure Tiles (text : String) (ts : List Token) : Prop where
  one_end : ∃ us last, ts = us ++ [last] ∧ last.kind = .endOfInput ∧
    ∀ t ∈ us, t.kind ≠ .endOfInput
  nonempty : ∀ t ∈ ts, t.kind ≠ .endOfInput → t.span.start.offset < t.span.stop.offset
  ordered : ts.Pairwise fun t u => t.span.stop.offset ≤ u.span.start.offset
  places : ∀ t ∈ ts, t.span.start.IsIn text ∧ t.span.stop.IsIn text
  boundaries : ∀ t ∈ ts, String.Pos.Raw.Valid text ⟨t.span.start.offset⟩ ∧
    String.Pos.Raw.Valid text ⟨t.span.stop.offset⟩
  -- The line of a token has its first character where the column says.
  lines : ∀ t ∈ ts, t.kind ≠ .endOfInput → ∃ l c,
    Source.line? text.toList t.span.start.line = some l ∧
      l[t.span.start.column - 1]? = some c ∧ (Source.slice text t.span).head? = some c

/-- Tokens and blanks are all of a text. -/
structure Covers (text : String) (ts : List Token) : Prop where
  between : ∀ gap ∈ (gapSpans .start ts).dropLast, Blank false (Source.slice text gap)
  last : ∀ gap ∈ (gapSpans .start ts).getLast?, Blank true (Source.slice text gap)
  all : (List.zipWith (fun gap t => Source.slice text gap ++ Source.slice text t.span)
    (gapSpans .start ts) ts).flatten = text.toList

section Layout

variable {before rest : List Char} {xs : List Piece} {t : Token}

/-- Where the tokens of pieces lie that stand after the beginning of a text. -/
theorem mem_tokens (h : t ∈ Piece.tokens (after before) xs) :
    (∃ x ∈ xs, ∃ as bs, t = ⟨x.kind, ⟨after as, after (as ++ x.lexeme)⟩⟩ ∧ before <+: as ∧
      before ++ xs.flatMap Piece.chars = as ++ x.lexeme ++ bs) ∨
    t = ⟨.endOfInput, .point (after (before ++ xs.flatMap Piece.chars))⟩ := by
  induction xs generalizing before with
  | nil =>
    rw [List.flatMap_nil, List.append_nil]
    exact .inr (List.mem_singleton.1 h)
  | cons x xs ih =>
    rw [Piece.tokens, Position.advanceBy_after, Position.advanceBy_after, List.mem_cons] at h
    rw [List.flatMap_cons, ← List.append_assoc]
    rcases h with rfl | h
    · refine .inl ⟨x, List.mem_cons_self, before, x.gap ++ xs.flatMap Piece.chars, rfl,
        List.prefix_rfl, ?_⟩
      simp [Piece.chars]
    · rcases ih h with ⟨y, hy, as, bs, ht, hbefore, htext⟩ | ht
      · exact .inl ⟨y, List.mem_cons_of_mem x hy, as, bs, ht,
          (List.prefix_append _ _).trans hbefore, htext⟩
      · exact .inr ht

theorem offset_after_le {as bs : List Char} (h : as <+: bs) :
    (after as).offset ≤ (after bs).offset := by
  obtain ⟨cs, rfl⟩ := h
  rw [Position.offset_after_append]
  exact Nat.le_add_right _ _

/-- No token begins before the place where the pieces begin. -/
theorem offset_le_start (h : t ∈ Piece.tokens (after before) xs) :
    (after before).offset ≤ t.span.start.offset := by
  rcases mem_tokens h with ⟨x, -, as, bs, rfl, hbefore, -⟩ | rfl
  · exact offset_after_le hbefore
  · exact offset_after_le (List.prefix_append _ _)

theorem pairwise_tokens (before : List Char) (xs : List Piece) :
    (Piece.tokens (after before) xs).Pairwise
      fun t u => t.span.stop.offset ≤ u.span.start.offset := by
  induction xs generalizing before with
  | nil => exact List.pairwise_singleton _ _
  | cons x xs ih =>
    rw [Piece.tokens, Position.advanceBy_after, Position.advanceBy_after]
    refine List.pairwise_cons.2 ⟨fun u hu => ?_, ih _⟩
    have hlexeme : before ++ x.lexeme <+: before ++ x.chars := ⟨x.gap, List.append_assoc _ _ _⟩
    exact (offset_after_le hlexeme).trans (offset_le_start hu)

theorem places_tokens (h : t ∈ Piece.tokens (after before) xs) :
    t.span.start.IsIn (String.ofList (before ++ (xs.flatMap Piece.chars ++ rest))) ∧
      t.span.stop.IsIn (String.ofList (before ++ (xs.flatMap Piece.chars ++ rest))) := by
  rw [← List.append_assoc]
  rcases mem_tokens h with ⟨x, -, as, bs, rfl, -, htext⟩ | rfl
  · rw [htext, List.append_assoc _ bs]
    refine ⟨?_, Position.isIn_after _ _⟩
    rw [List.append_assoc]
    exact Position.isIn_after _ _
  · exact ⟨Position.isIn_after _ _, Position.isIn_after _ _⟩

theorem nonempty_tokens (hxs : ∀ x ∈ xs, x.lexeme ≠ []) (h : t ∈ Piece.tokens (after before) xs)
    (ht : t.kind ≠ .endOfInput) : t.span.start.offset < t.span.stop.offset := by
  rcases mem_tokens h with ⟨x, hx, as, bs, rfl, -⟩ | rfl
  · obtain ⟨c, cs, hlexeme⟩ := List.exists_cons_of_ne_nil (hxs x hx)
    have hc := c.utf8Size_pos
    change (after as).offset < (after (as ++ x.lexeme)).offset
    rw [Position.offset_after_append, hlexeme, String.utf8Len_cons]
    omega
  · exact absurd rfl ht

theorem lines_tokens (hxs : ∀ x ∈ xs, ∃ findings, x.Scanned findings)
    (h : t ∈ Piece.tokens (after before) xs) (ht : t.kind ≠ .endOfInput) :
    ∃ l c,
      Source.line? (before ++ (xs.flatMap Piece.chars ++ rest)) t.span.start.line = some l ∧
        l[t.span.start.column - 1]? = some c ∧
        (Source.slice (String.ofList (before ++ (xs.flatMap Piece.chars ++ rest))) t.span).head? =
          some c := by
  rcases mem_tokens h with ⟨x, hx, as, bs, rfl, -, htext⟩ | rfl
  · obtain ⟨findings, hscanned⟩ := hxs x hx
    obtain ⟨c, cs, hlexeme, hc⟩ := hscanned.exists_cons
    have hnewline : c ≠ '\n' := fun he => by rw [he] at hc; revert hc; decide
    have hreturn : c ≠ '\r' := fun he => by rw [he] at hc; revert hc; decide
    obtain ⟨l, hline, hcolumn⟩ := Source.exists_line hnewline hreturn as (cs ++ (bs ++ rest))
    rw [← List.append_assoc before, htext, List.append_assoc _ bs, Source.slice_after, hlexeme]
    refine ⟨l, c, ?_, hcolumn, rfl⟩
    rwa [List.append_assoc]
  · exact absurd rfl ht

/-- The texts of the tokens of pieces are the lexemes of the pieces. -/
theorem slices_tokens (before : List Char) (xs : List Piece) (rest : List Char) :
    (Piece.tokens (after before) xs).map (fun t =>
        Source.slice (String.ofList (before ++ (xs.flatMap Piece.chars ++ rest))) t.span) =
      xs.map (·.lexeme) ++ [[]] := by
  induction xs generalizing before with
  | nil =>
    have hend := Source.slice_after before [] rest
    rw [List.append_nil] at hend
    exact congrArg (· :: []) hend
  | cons x xs ih =>
    have htext : before ++ ((x :: xs).flatMap Piece.chars ++ rest) =
        before ++ x.lexeme ++ (x.gap ++ (xs.flatMap Piece.chars ++ rest)) := by
      simp [Piece.chars]
    have hplace : before ++ x.lexeme ++ (x.gap ++ (xs.flatMap Piece.chars ++ rest)) =
        before ++ x.chars ++ (xs.flatMap Piece.chars ++ rest) := by
      simp [Piece.chars]
    rw [Piece.tokens, List.map_cons, Position.advanceBy_after, Position.advanceBy_after, htext,
      Source.slice_after, hplace, ih]
    rfl

variable {gap : List Char}

theorem Piece.Separated.between (h : Separated gap xs) :
    ∀ g ∈ (gap :: xs.map (·.gap)).dropLast, Blank false g := by
  induction xs generalizing gap with
  | nil => exact List.forall_mem_nil _
  | cons x xs ih => exact List.forall_mem_cons.2 ⟨h.1, ih h.2⟩

theorem Piece.Separated.last (h : Separated gap xs) :
    ∀ g ∈ (gap :: xs.map (·.gap)).getLast?, Blank true g := by
  induction xs generalizing gap with
  | nil =>
    rintro _ ⟨⟩
    exact h
  | cons x xs ih =>
    rw [List.map_cons, List.getLast?_cons_cons]
    exact ih h.2

theorem tiles_tokens (gap rest : List Char) (hxs : ∀ x ∈ xs, ∃ findings, x.Scanned findings) :
    Tiles (String.ofList (gap ++ (xs.flatMap Piece.chars ++ rest)))
      (Piece.tokens (after gap) xs) where
  one_end := by
    have hkinds := Piece.map_kind_tokens (after gap) xs
    obtain ⟨us, ls, htokens, hus, hls⟩ := List.map_eq_append_iff.1 hkinds
    obtain ⟨last, rfl, hlast⟩ := List.map_eq_singleton_iff.1 hls
    refine ⟨us, last, htokens, hlast, fun t ht => ?_⟩
    obtain ⟨x, hx, hkind⟩ := List.mem_map.1 (hus ▸ List.mem_map_of_mem ht)
    obtain ⟨findings, p, c, cs, rest, -, hs⟩ := hxs x hx
    exact hkind ▸ scanToken_kind_ne hs
  nonempty _ := nonempty_tokens fun x hx => by
    obtain ⟨findings, hscanned⟩ := hxs x hx
    obtain ⟨c, cs, hlexeme, -⟩ := hscanned.exists_cons
    simp [hlexeme]
  ordered := pairwise_tokens gap xs
  places _ := places_tokens
  boundaries _ ht := ⟨(places_tokens ht).1.valid, (places_tokens ht).2.valid⟩
  lines _ ht hkind := by
    rw [String.toList_ofList]
    exact lines_tokens hxs ht hkind

theorem tiles_lex (text : String) : Tiles text (lex text).tokens := by
  obtain ⟨gap, xs, rest, htext, htokens, hxs⟩ := exists_pieces ErrorLog.limit .start text.toList
  rw [Position.advanceBy_start] at htokens
  have htiles := tiles_tokens gap rest hxs
  rwa [← htext, String.ofList_toList, ← htokens] at htiles

end Layout

end Lexer

end ExprLang
