import ExprLang.Expr.Written
import ExprLang.Proofs.Lexing.Numbers
import ExprLang.Proofs.Lexing.Strings

/-!
Written tokens. Tokens that are written one after another, with a blank after each, are read again
as they were.
-/
namespace ExprLang

/-- A word as an identifier or a keyword has it. -/
structure IsWord (word : String) : Prop where
  start : word.toList.head?.any isIdentifierStart = true
  part : word.toList.all isIdentifierPart = true

/-- A number that can be written as a literal and whose text denotes it. -/
structure IsLiteral (x : Float) : Prop where
  finite : Binary64.isFinite x = true
  unsigned : Binary64.isNegative x = false
  reads : Reading.decimal? (NumberFormat.value.write x).toList = some x

/-- A token that has a text of its own. -/
def TokenKind.Legible : TokenKind → Prop
  | .number x => IsLiteral x
  | .identifier name => IsWord name ∧ Keyword.ofText? name = none
  | .endOfInput => False
  | _ => True

theorem Keyword.ofText?_text (k : Keyword) : ofText? k.text = some k := by
  cases k <;> decide

theorem Keyword.isWord_text (k : Keyword) : IsWord k.text := by
  cases k <;> exact ⟨rfl, rfl⟩

theorem TokenKind.legible_ofName {name : String} (h : IsWord name) : (ofName name).Legible := by
  unfold ofName
  split
  · trivial
  · exact ⟨h, ‹_›⟩

/-- What holds of every character between two code points. -/
theorem of_mem_codePoints {p : Char → Bool} {first last : Nat} {c : Char}
    (h : ∀ n ∈ List.range' first (last + 1 - first), p (Char.ofNat n) = false)
    (hfirst : first ≤ c.toNat) (hlast : c.toNat ≤ last) : p c = false := by
  have hc := h c.toNat (List.mem_range'_1.2 ⟨hfirst, by omega⟩)
  rwa [Char.ofNat_toNat] at hc

theorem not_isTriviaSpace_of_isDigit {c : Char} (h : c.isDigit = true) :
    isTriviaSpace c = false :=
  of_mem_codePoints (by decide) (toNat_of_isDigit h).1 (toNat_of_isDigit h).2

theorem Text.exists_of_inRanges {ranges : List (Nat × Nat)} {n : Nat}
    (h : Text.inRanges ranges n = true) : ∃ r ∈ ranges, r.1 ≤ n ∧ n ≤ r.2 := by
  induction ranges with
  | nil => cases h
  | cons r ranges ih =>
    rw [Text.inRanges] at h
    split at h
    · cases h
    split at h
    · exact ⟨r, List.mem_cons_self, by omega, by omega⟩
    · obtain ⟨s, hs, hn⟩ := ih h
      exact ⟨s, List.mem_cons_of_mem _ hs, hn⟩

/-- No word begins with white space, a digit or a quote. -/
theorem not_isIdentifierStart {c : Char}
    (h : isTriviaSpace c = true ∨ c.isDigit = true ∨ c ∈ ['"', '\'', '.', '/']) :
    isIdentifierStart c = false := by
  rcases h with hspace | hdigit | hc
  · have hranges : ∀ r ∈ Text.whiteSpaceRanges, ∀ n ∈ List.range' r.1 (r.2 + 1 - r.1),
        isIdentifierStart (Char.ofNat n) = false := by decide +kernel
    simp only [isTriviaSpace, Bool.or_eq_true, decide_eq_true_eq] at hspace
    rcases hspace with hspace | rfl
    · obtain ⟨r, hr, hfirst, hlast⟩ := Text.exists_of_inRanges hspace
      exact of_mem_codePoints (hranges r hr) hfirst hlast
    · decide +kernel
  · exact of_mem_codePoints (by decide) (toNat_of_isDigit hdigit).1 (toNat_of_isDigit hdigit).2
  · simp only [List.mem_cons, List.not_mem_nil, or_false] at hc
    rcases hc with rfl | rfl | rfl | rfl <;> decide

namespace Lexer

/-- A token at the front of a text, with nothing to skip before it and a blank after it. -/
structure Fronts (k : TokenKind) (c : Char) (cs rest : List Char) : Prop where
  written_eq : k.written ++ ' ' :: rest = c :: cs
  between (p : Position) : Trivia.scan .between p (c :: cs) = ⟨[], c :: cs, p, []⟩
  scanned (p : Position) : scanToken p c cs = some ⟨k, k.written, ' ' :: rest, []⟩

theorem between_eq {c : Char} (hspace : isTriviaSpace c = false) (hslash : c ≠ '/') (cs : List Char)
    (p : Position) : Trivia.scan .between p (c :: cs) = ⟨[], c :: cs, p, []⟩ := by
  unfold Trivia.scan
  split <;> simp_all

theorem fronts_word {word : String} (h : IsWord word) (rest : List Char)
    (hk : (wordKind word).written = word.toList) : ∃ c cs, Fronts (wordKind word) c cs rest := by
  obtain ⟨c, hc, hstart⟩ := (Option.any_eq_true _ _).1 h.start
  have hpart : ∀ x ∈ word.toList, isIdentifierPart x = true := List.all_eq_true.1 h.part
  obtain ⟨cs, hcs⟩ := List.head?_eq_some_iff.1 hc
  have hno : ∀ {P : Prop}, (P → isIdentifierStart c = false) → ¬ P := fun hp hP => by
    rw [hp hP] at hstart
    cases hstart
  have hchars : c :: (cs ++ ' ' :: rest) = word.toList ++ ' ' :: rest := by rw [hcs]; rfl
  have hblank : ∀ x ∈ (' ' :: rest).head?, isIdentifierPart x = false := by
    rintro _ ⟨⟩
    decide
  have hword : scanWord (c :: (cs ++ ' ' :: rest)) =
      ⟨wordKind word, word.toList, ' ' :: rest, []⟩ := by
    rw [scanWord, hchars, takeWhile_append_stop hpart hblank, dropWhile_append_stop hpart hblank,
      String.ofList_toList]
  refine ⟨c, cs ++ ' ' :: rest, by rw [hk, hchars], between_eq ?_ ?_ _, fun p => ?_⟩
  · exact Bool.eq_false_iff.2 (hno fun h => not_isIdentifierStart (.inl h))
  · exact hno fun h => not_isIdentifierStart (.inr (.inr (by simp [h])))
  · have hquote : ¬ (c = '"' ∨ c = '\'') := hno fun h =>
      not_isIdentifierStart (.inr (.inr (by rcases h with rfl | rfl <;> decide)))
    have hdigit : ¬ c.isDigit = true := hno fun h => not_isIdentifierStart (.inr (.inl h))
    have hdot : c ≠ '.' := hno fun h => not_isIdentifierStart (.inr (.inr (by simp [h])))
    rw [scanToken, if_neg hquote, if_neg (by simp [hdigit, hdot]), if_pos hstart, hword, hk]

theorem fronts_number {x : Float} (h : IsLiteral x) (rest : List Char) :
    ∃ c cs, Fronts (.number x) c cs rest := by
  obtain ⟨t, ht, hwrite⟩ := NumberFormat.value_write_eq h.finite h.unsigned
  obtain ⟨c, cs, hcs⟩ : ∃ c cs, (NumberFormat.value.write x).toList = c :: cs :=
    List.exists_cons_of_ne_nil (NumberFormat.value_write_ne_nil x)
  have hdigit : c.isDigit = true := by
    obtain ⟨d, ds, hds⟩ := List.exists_cons_of_ne_nil ht.whole_ne_nil
    have hc := hwrite
    rw [hcs, NumberText.chars, hds] at hc
    rw [(List.cons.inj hc).1]
    exact ht.whole_isDigit d (hds ▸ List.mem_cons_self)
  have hchars : (NumberFormat.value.write x).toList ++ ' ' :: rest = c :: (cs ++ ' ' :: rest) := by
    rw [hcs]
    rfl
  refine ⟨c, cs ++ ' ' :: rest, hchars,
    between_eq (not_isTriviaSpace_of_isDigit hdigit) ?_ _, fun p => ?_⟩
  · rintro rfl
    cases hdigit
  · have hquote : ¬ (c = '"' ∨ c = '\'') := by rintro (rfl | rfl) <;> cases hdigit
    rw [scanToken, if_neg hquote, if_pos (by rw [hdigit]; rfl), ← hchars,
      scanNumber_write p h.finite h.unsigned h.reads rest]
    rfl

theorem fronts_string (s : String) (rest : List Char) : ∃ c cs, Fronts (.string s) c cs rest := by
  refine ⟨'"', s.toList.flatMap Text.quoteChar ++ '"' :: ' ' :: rest, ?_,
    between_eq rfl (by decide) _, fun p => ?_⟩
  · simp [TokenKind.written, Text.quote]
  · rw [scanToken, if_pos (.inl rfl), scanString_quote, String.ofList_toList]
    rfl

theorem fronts_symbol (s : Symbol) (rest : List Char) : ∃ c cs, Fronts (.symbol s) c cs rest := by
  cases s <;> exact ⟨_, _, rfl, fun _ => rfl, fun _ => rfl⟩

/-- Every token with a text is read from it. -/
theorem exists_fronts {k : TokenKind} (h : k.Legible) (rest : List Char) :
    ∃ c cs, Fronts k c cs rest := by
  cases k with
  | number x => exact fronts_number h rest
  | string s => exact fronts_string s rest
  | identifier name =>
    have hkind : wordKind name = .identifier name := by rw [wordKind, h.2]
    have hfronts := fronts_word h.1 rest (by rw [hkind]; rfl)
    rwa [hkind] at hfronts
  | keyword k =>
    have hkind : wordKind k.text = .keyword k := by rw [wordKind, k.ofText?_text]
    have hfronts := fronts_word k.isWord_text rest (by rw [hkind]; rfl)
    rwa [hkind] at hfronts
  | symbol s => exact fronts_symbol s rest
  | endOfInput => exact h.elim

/-- A text begins with the token behind what is skipped, and with its errors. -/
theorem scan_front {budget : Nat} (hbudget : budget ≠ 0) {p : Position} {cs rest : List Char}
    {c : Char} {t : Trivia} (ht : Trivia.scan .between p cs = t) (hrest : t.rest = c :: rest)
    (hfindings : t.findings = []) {s : Scanned} (hs : scanToken t.stop c rest = some s) :
    scan budget p cs =
      let stop := t.stop.advanceBy s.lexeme
      let left := budget - s.findings.length
      ((if left = 0 then endAt stop [] else scan left stop s.rest).report s.findings).push
        ⟨s.kind, ⟨t.stop, stop⟩⟩ := by
  subst ht
  rw [scan]
  simp only [hfindings, List.length_nil, Nat.sub_zero, if_neg hbudget]
  split
  · rename_i hnil
    rw [hnil] at hrest
    cases hrest
  · rename_i c' rest' hcons
    obtain ⟨rfl, rfl⟩ := List.cons.inj (hcons.symm.trans hrest)
    split
    · rename_i hnone
      rw [hnone] at hs
      cases hs
    · rename_i s' hs'
      obtain rfl := Option.some.inj (hs'.symm.trans hs)
      rfl

/-- Reading goes on after a token that stands behind what is skipped. -/
theorem scan_token {budget : Nat} (hbudget : budget ≠ 0) {p : Position} {cs rest : List Char}
    {c : Char} {t : Trivia} (ht : Trivia.scan .between p cs = t) (hrest : t.rest = c :: rest)
    (hfindings : t.findings = []) {s : Scanned} (hs : scanToken t.stop c rest = some s)
    (hclean : s.findings = []) :
    scan budget p cs = (scan budget (t.stop.advanceBy s.lexeme) s.rest).push
      ⟨s.kind, ⟨t.stop, t.stop.advanceBy s.lexeme⟩⟩ := by
  rw [scan_front hbudget ht hrest hfindings hs]
  simp only [hclean, List.length_nil, Nat.sub_zero, if_neg hbudget]
  rfl

theorem scan_end {budget : Nat} {p : Position} {cs : List Char} {t : Trivia}
    (ht : Trivia.scan .between p cs = t) (hrest : t.rest = []) (hfindings : t.findings = []) :
    scan budget p cs = endAt t.stop [] := by
  subst ht
  rw [scan]
  simp only [hfindings, List.length_nil, Nat.sub_zero]
  split
  · rfl
  · split
    · rfl
    · rename_i hcons
      rw [hcons] at hrest
      cases hrest

/-- Written tokens are read as they are, with a blank before the first one or without. -/
theorem scan_writeAll {budget : Nat} (hbudget : budget ≠ 0) (p : Position) {ks : List TokenKind}
    (h : ∀ k ∈ ks, k.Legible) {blank : List Char} (hblank : blank = [] ∨ blank = [' ']) :
    (scan budget p (blank ++ TokenKind.writeAll ks)).tokens.map (·.kind) = ks ++ [.endOfInput] ∧
      (scan budget p (blank ++ TokenKind.writeAll ks)).findings = [] := by
  induction ks generalizing p blank with
  | nil =>
    have ht : Trivia.scan .between p (blank ++ TokenKind.writeAll []) =
        ⟨blank, [], p.advanceBy blank, []⟩ := by
      rcases hblank with rfl | rfl <;> rfl
    rw [scan_end ht rfl rfl]
    exact ⟨rfl, rfl⟩
  | cons k ks ih =>
    obtain ⟨hk, hks⟩ := List.forall_mem_cons.1 h
    obtain ⟨c, cs, hfronts⟩ := exists_fronts hk (TokenKind.writeAll ks)
    have hchars : TokenKind.writeAll (k :: ks) = c :: cs := by
      rw [← hfronts.written_eq]
      simp [TokenKind.writeAll]
    have ht : Trivia.scan .between p (blank ++ TokenKind.writeAll (k :: ks)) =
        ⟨blank, c :: cs, p.advanceBy blank, []⟩ := by
      rw [hchars]
      rcases hblank with rfl | rfl
      · exact hfronts.between p
      · exact congrArg (Trivia.skip [' ']) (hfronts.between (p.advance ' '))
    obtain ⟨hkinds, hfindings⟩ := ih _ hks (.inr rfl)
    rw [scan_token hbudget ht rfl rfl (hfronts.scanned _) rfl]
    exact ⟨congrArg (k :: ·) hkinds, hfindings⟩

end Lexer

theorem lex_writeAll {ks : List TokenKind} (h : ∀ k ∈ ks, k.Legible) :
    ∃ ts, lex (String.ofList (TokenKind.writeAll ks)) = ⟨ts, []⟩ ∧
      ts.map (·.kind) = ks ++ [.endOfInput] := by
  obtain ⟨hkinds, hfindings⟩ :=
    Lexer.scan_writeAll (show ErrorLog.limit ≠ 0 by decide) .start h (.inl rfl)
  refine ⟨_, ?_, hkinds⟩
  rw [lex, String.toList_ofList, ← hfindings]
  rfl

end ExprLang
