import ExprLang.Proofs.Lexing
import ExprLang.Proofs.Lexing.Blanks
import Mathlib.Data.List.Forall2

/-!
Numbers, escapes and strings read again. What was read of them, valid or not, is read as it was
wherever the same character comes after it as before. After a number this may also be a blank or the
end of the text, and after a string that is closed anything.
-/
namespace ExprLang

/-- Whether a lexeme ends before a text. -/
def Apart (rest : List Char) : Prop := ∀ c ∈ rest.head?, isTriviaSpace c = true

theorem apart_nil : Apart [] := fun _ h => nomatch h

theorem apart_cons {c : Char} (hc : isTriviaSpace c = true) (cs : List Char) : Apart (c :: cs) := by
  rintro _ ⟨⟩
  exact hc

/-- What holds of no white space. -/
theorem of_isTriviaSpace {p : Char → Bool} (hranges : ∀ r ∈ Text.whiteSpaceRanges,
    ∀ n ∈ List.range' r.1 (r.2 + 1 - r.1), p (Char.ofNat n) = false) (hmark : p '\uFEFF' = false)
    {c : Char} (h : isTriviaSpace c = true) : p c = false := by
  simp only [isTriviaSpace, Bool.or_eq_true, decide_eq_true_eq] at h
  rcases h with h | rfl
  · obtain ⟨r, hr, hfirst, hlast⟩ := Text.exists_of_inRanges h
    exact of_mem_codePoints (hranges r hr) hfirst hlast
  · exact hmark

theorem not_isIdentifierPart_of_isTriviaSpace {c : Char} (h : isTriviaSpace c = true) :
    isIdentifierPart c = false :=
  of_isTriviaSpace (by decide +kernel) (by decide +kernel) h

theorem not_isHexDigit_of_isTriviaSpace {c : Char} (h : isTriviaSpace c = true) :
    Escape.isHexDigit c = false :=
  of_isTriviaSpace (by decide +kernel) (by decide +kernel) h

theorem not_isDigit_of_isTriviaSpace {c : Char} (h : isTriviaSpace c = true) :
    c.isDigit = false := by
  by_contra hdigit
  rw [not_isTriviaSpace_of_isDigit (Bool.not_eq_false _ ▸ hdigit)] at h
  cases h

theorem ne_of_isTriviaSpace {c d : Char} (hc : isTriviaSpace c = true)
    (hd : isTriviaSpace d = false) : c ≠ d := by
  rintro rfl
  rw [hd] at hc
  cases hc

namespace Apart

variable {rest : List Char}

theorem ne_cons (h : Apart rest) {c : Char} (hc : isTriviaSpace c = false) (cs : List Char) :
    rest ≠ c :: cs := by
  rintro rfl
  rw [h c rfl] at hc
  cases hc

end Apart

theorem dropWhile_eq_self {α : Type} {p : α → Bool} {xs : List α}
    (h : ∀ x ∈ xs.head?, p x = false) : xs.dropWhile p = xs :=
  dropWhile_append_stop (List.forall_mem_nil _) h

/-- What stands behind a lexeme in two texts: the same character, or what is apart from it. -/
def Alike (rest rest' : List Char) : Prop := rest'.head? = rest.head? ∨ Apart rest'

namespace Alike

variable {rest rest' : List Char}

theorem append (h : Alike rest rest') (cs : List Char) : Alike (cs ++ rest) (cs ++ rest') := by
  cases cs with
  | nil => exact h
  | cons c cs => exact .inl rfl

/-- What holds of the first character of a text, and of blanks, holds of the first one here. -/
theorem head (h : Alike rest rest') {P : Char → Prop} (hrest : ∀ c ∈ rest.head?, P c)
    (hspace : ∀ c, isTriviaSpace c = true → P c) : ∀ c ∈ rest'.head?, P c := by
  rcases h with hsame | hapart
  · rwa [hsame]
  · exact fun c hc => hspace c (hapart c hc)

theorem ne_cons (h : Alike rest rest') {c : Char} (hc : isTriviaSpace c = false)
    (hrest : ∀ cs, rest = c :: cs → False) : ∀ cs, rest' = c :: cs → False := by
  rintro cs rfl
  rcases h with hsame | hapart
  · obtain ⟨ds, hds⟩ := List.head?_eq_some_iff.1 hsame.symm
    exact hrest ds hds
  · exact hapart.ne_cons hc cs rfl

end Alike

section Run

variable {p : Char → Bool} {cs rest : List Char}

theorem head?_dropWhile : ∀ c ∈ (cs.dropWhile p).head?, p c = false :=
  fun c hc => by
    have h := List.head?_dropWhile_not p cs
    rwa [Option.mem_def.1 hc] at h

theorem head?_rest (hp : ∀ c, isTriviaSpace c = true → p c = false)
    (h : Alike (cs.dropWhile p) rest) : ∀ c ∈ rest.head?, p c = false :=
  h.head head?_dropWhile hp

/-- A run of such characters is taken again. -/
theorem takeWhile_again (hp : ∀ c, isTriviaSpace c = true → p c = false)
    (h : Alike (cs.dropWhile p) rest) :
    (cs.takeWhile p ++ rest).takeWhile p = cs.takeWhile p :=
  takeWhile_append_stop (fun _ hc => List.mem_takeWhile_imp hc) (head?_rest hp h)

theorem dropWhile_again (hp : ∀ c, isTriviaSpace c = true → p c = false)
    (h : Alike (cs.dropWhile p) rest) : (cs.takeWhile p ++ rest).dropWhile p = rest :=
  dropWhile_append_stop (fun _ hc => List.mem_takeWhile_imp hc) (head?_rest hp h)

/-- Before a run that is taken, what follows it is alike when what follows the run is. -/
theorem Alike.run (h : Alike (cs.dropWhile p) rest) : Alike cs (cs.takeWhile p ++ rest) := by
  have happend := h.append (cs.takeWhile p)
  rwa [List.takeWhile_append_dropWhile] at happend

end Run

namespace NumberLiteral

variable {cs rest : List Char}

theorem splitSign_again (h : Alike (splitSign cs).2 rest) :
    splitSign ((splitSign cs).1 ++ rest) = ((splitSign cs).1, rest) := by
  revert h
  fun_cases splitSign cs with
  | case1 => exact fun _ => rfl
  | case2 => exact fun _ => rfl
  | case3 _ hplus hminus =>
    intro h
    rw [List.nil_append, splitSign]
    · exact h.ne_cons (by decide) hplus
    · exact h.ne_cons (by decide) hminus

theorem exponentPart_mark {c : Char} (hc : c = 'e' ∨ c = 'E') (cs : List Char) :
    exponentPart (c :: cs) =
      ⟨c :: (splitSign cs).1 ++ (splitSign cs).2.takeWhile Char.isDigit,
        (splitSign cs).2.dropWhile Char.isDigit,
        if ((splitSign cs).2.takeWhile Char.isDigit).isEmpty then none
        else some (Reading.signed ((splitSign cs).1 == ['-'])
          (Reading.digitsValue ((splitSign cs).2.takeWhile Char.isDigit)))⟩ :=
  if_pos hc

theorem exponentPart_none (h : ∀ c ∈ cs.head?, c ≠ 'e' ∧ c ≠ 'E') :
    exponentPart cs = ⟨[], cs, some 0⟩ := by
  cases cs with
  | nil => rfl
  | cons c cs => exact if_neg (not_or.2 (h c rfl))

/-- What does not begin with the mark of an exponent has none. -/
theorem exponentPart_cases (cs : List Char) :
    (∀ c ∈ cs.head?, c ≠ 'e' ∧ c ≠ 'E') ∨ ∃ c more, cs = c :: more ∧ (c = 'e' ∨ c = 'E') := by
  by_cases hmark : ∀ c ∈ cs.head?, c ≠ 'e' ∧ c ≠ 'E'
  · exact .inl hmark
  · simp only [not_forall, not_and_or, not_not] at hmark
    obtain ⟨c, hhead, hc⟩ := hmark
    obtain ⟨more, rfl⟩ := List.head?_eq_some_iff.1 hhead
    exact .inr ⟨c, more, rfl, hc⟩

theorem exponentPart_again (h : Alike (exponentPart cs).rest rest) :
    exponentPart ((exponentPart cs).lexeme ++ rest) =
      ⟨(exponentPart cs).lexeme, rest, (exponentPart cs).value⟩ := by
  rcases exponentPart_cases cs with hmark | ⟨c, cs, rfl, hc⟩
  · rw [exponentPart_none hmark] at h ⊢
    exact exponentPart_none (h.head hmark fun c hspace =>
      ⟨ne_of_isTriviaSpace hspace (by decide), ne_of_isTriviaSpace hspace (by decide)⟩)
  · rw [exponentPart_mark hc] at h ⊢
    have hdigit := fun c => not_isDigit_of_isTriviaSpace (c := c)
    change exponentPart (c :: ((splitSign cs).1 ++ _) ++ rest) = _
    rw [List.cons_append, List.append_assoc, exponentPart_mark hc, splitSign_again h.run]
    simp only [takeWhile_again hdigit h, dropWhile_again hdigit h]

theorem fractionPart_again (h : Alike (fractionPart cs).2.2 rest) :
    fractionPart ((fractionPart cs).1 ++ ((fractionPart cs).2.1 ++ rest)) =
      ((fractionPart cs).1, (fractionPart cs).2.1, rest) := by
  revert h
  fun_cases fractionPart cs with
  | case1 cs =>
    intro h
    have hdigit := fun c => not_isDigit_of_isTriviaSpace (c := c)
    change (_, (cs.takeWhile Char.isDigit ++ rest).takeWhile Char.isDigit,
      (cs.takeWhile Char.isDigit ++ rest).dropWhile Char.isDigit) = _
    rw [takeWhile_again hdigit h, dropWhile_again hdigit h]
  | case2 _ hpoint =>
    intro h
    rw [List.nil_append, List.nil_append, fractionPart]
    exact h.ne_cons (by decide) hpoint

theorem scanDecimal_value (cs : List Char) :
    let whole := cs.takeWhile Char.isDigit
    let f := fractionPart (cs.dropWhile Char.isDigit)
    let e := exponentPart f.2.2
    (scanDecimal cs).value =
      if (whole.head? == some '0' && decide (1 < whole.length)) ||
        !(e.rest.takeWhile isIdentifierPart).isEmpty then none
      else e.value.map fun n => Reading.Numeral.toFloat ⟨false, whole, f.2.1, n⟩ :=
  rfl

/-- What was taken for a decimal is taken again for the same one. -/
theorem scanDecimal_again (h : Alike (scanDecimal cs).rest rest) :
    scanDecimal ((scanDecimal cs).lexeme ++ rest) =
      ⟨(scanDecimal cs).lexeme, rest, (scanDecimal cs).value⟩ := by
  let whole := cs.takeWhile Char.isDigit
  let f := fractionPart (cs.dropWhile Char.isDigit)
  let e := exponentPart f.2.2
  let stray := e.rest.takeWhile isIdentifierPart
  have hlexeme : (scanDecimal cs).lexeme = whole ++ (f.1 ++ (f.2.1 ++ (e.lexeme ++ stray))) := by
    change whole ++ f.1 ++ f.2.1 ++ e.lexeme ++ stray = _
    simp only [List.append_assoc]
  have hdigit := fun c => not_isDigit_of_isTriviaSpace (c := c)
  have hpart := fun c => not_isIdentifierPart_of_isTriviaSpace (c := c)
  have hstray : Alike (e.rest.dropWhile isIdentifierPart) rest := h
  -- What stands behind each part begins as it did, or else nothing does and the part is the last.
  have hrest : Alike e.rest (stray ++ rest) := hstray.run
  have hexponent : Alike f.2.2 (e.lexeme ++ (stray ++ rest)) := by
    have happend := hrest.append e.lexeme
    rwa [exponentPart_append] at happend
  have hfraction : Alike (cs.dropWhile Char.isDigit)
      (f.1 ++ (f.2.1 ++ (e.lexeme ++ (stray ++ rest)))) := by
    have happend := (hexponent.append f.2.1).append f.1
    rwa [fractionPart_append] at happend
  rw [hlexeme]
  simp only [List.append_assoc]
  conv_lhs => unfold scanDecimal
  simp only [takeWhile_again hdigit hfraction, dropWhile_again hdigit hfraction,
    fractionPart_again hexponent, exponentPart_again hrest, takeWhile_again hpart hstray,
    dropWhile_again hpart hstray, whole, f, e, stray]
  rw [scanDecimal_value]
  simp only [List.append_assoc]

theorem scanHex_eq (mark cs : List Char) :
    scanHex mark cs =
      ⟨mark ++ cs.takeWhile Escape.isHexDigit ++
          (cs.dropWhile Escape.isHexDigit).takeWhile isIdentifierPart,
        (cs.dropWhile Escape.isHexDigit).dropWhile isIdentifierPart,
        if (cs.takeWhile Escape.isHexDigit).isEmpty ||
          !((cs.dropWhile Escape.isHexDigit).takeWhile isIdentifierPart).isEmpty then none
        else some (Reading.radixValue 16
          ((cs.takeWhile Escape.isHexDigit).filterMap (Reading.digit? 16)))⟩ :=
  rfl

/-- What was taken for a hexadecimal number is taken again for the same one. -/
theorem scanHex_again {mark : List Char} (h : Alike (scanHex mark cs).rest rest) :
    ∃ ds, (scanHex mark cs).lexeme = mark ++ ds ∧
      scanHex mark (ds ++ rest) = ⟨mark ++ ds, rest, (scanHex mark cs).value⟩ := by
  let ds := cs.takeWhile Escape.isHexDigit
  let stray := (cs.dropWhile Escape.isHexDigit).takeWhile isIdentifierPart
  have hhex := fun c => not_isHexDigit_of_isTriviaSpace (c := c)
  have hpart := fun c => not_isIdentifierPart_of_isTriviaSpace (c := c)
  have hstray : Alike ((cs.dropWhile Escape.isHexDigit).dropWhile isIdentifierPart) rest := h
  have hrest : Alike (cs.dropWhile Escape.isHexDigit) (stray ++ rest) := hstray.run
  refine ⟨ds ++ stray, List.append_assoc _ _ _, ?_⟩
  rw [List.append_assoc, scanHex_eq, takeWhile_again hhex hrest, dropWhile_again hhex hrest,
    takeWhile_again hpart hstray, dropWhile_again hpart hstray, scanHex_eq, List.append_assoc]

/-- What was taken for a number is taken again for the same one. -/
theorem scan_again (h : Alike (scan cs).rest rest) :
    scan ((scan cs).lexeme ++ rest) = ⟨(scan cs).lexeme, rest, (scan cs).value⟩ := by
  have happend := lexeme_append_rest cs
  revert h happend
  fun_cases scan cs with
  | case1 cs =>
    intro h _
    obtain ⟨ds, hlexeme, hscan⟩ := scanHex_again h
    rw [hlexeme]
    exact hscan
  | case2 cs =>
    intro h _
    obtain ⟨ds, hlexeme, hscan⟩ := scanHex_again h
    rw [hlexeme]
    exact hscan
  | case3 _ hx hX =>
    intro h happend
    have hnot : ∀ x, isTriviaSpace x = false → (∀ tail, cs = '0' :: x :: tail → False) →
        ∀ tail, (scanDecimal cs).lexeme ++ rest = '0' :: x :: tail → False := by
      intro x hx hcs tail htail
      rcases hlexeme : (scanDecimal cs).lexeme with _ | ⟨a, _ | ⟨b, more⟩⟩ <;>
        rw [hlexeme] at htail happend
      · -- A text that begins with a digit has a number that is not empty.
        refine h.ne_cons (c := '0') (by decide) (fun ds hds => ?_) _ htail
        have hcs : cs = '0' :: ds := happend.symm.trans hds
        rw [hcs] at hlexeme
        cases hlexeme
      · obtain rfl : a = '0' := (List.cons.inj htail).1
        refine h.ne_cons hx (fun ds hds => ?_) _ (List.cons.inj htail).2
        exact hcs ds (happend.symm.trans (congrArg ('0' :: ·) hds))
      · obtain ⟨rfl, hnext⟩ := List.cons.inj htail
        obtain ⟨rfl, -⟩ := List.cons.inj hnext
        exact hcs _ happend.symm
    rw [scan]
    · exact scanDecimal_again h
    · exact hnot 'x' (by decide) hx
    · exact hnot 'X' (by decide) hX

end NumberLiteral

namespace Escape

variable {cs rest : List Char}

theorem take_again {p : Char → Bool} (count : Nat) (cs rest : List Char)
    (h : rest.head? = (cs.drop ((cs.take count).takeWhile p).length).head?) :
    (((cs.take count).takeWhile p ++ rest).take count).takeWhile p =
      (cs.take count).takeWhile p := by
  induction count generalizing cs with
  | zero => rw [List.take_zero, List.take_zero]
  | succ count ih =>
    cases cs with
    | nil =>
      obtain rfl := List.head?_eq_none_iff.1 h
      rfl
    | cons c cs =>
      rw [List.take_succ_cons] at h ⊢
      by_cases hc : p c = true
      · rw [List.takeWhile_cons_of_pos hc] at h ⊢
        rw [List.cons_append, List.take_succ_cons, List.takeWhile_cons_of_pos hc, ih cs h]
      · rw [List.takeWhile_cons_of_neg hc] at h ⊢
        obtain ⟨tail, rfl⟩ := List.head?_eq_some_iff.1 h
        exact List.takeWhile_cons_of_neg hc

theorem scanFixed_again {mark : List Char} {count : Nat}
    (h : rest.head? = (scanFixed mark count cs).rest.head?) :
    ∃ ds, (scanFixed mark count cs).lexeme = mark ++ ds ∧
      cs = ds ++ (scanFixed mark count cs).rest ∧ scanFixed mark count (ds ++ rest) =
        ⟨mark ++ ds, rest, (scanFixed mark count cs).value, (scanFixed mark count cs).isValid⟩ := by
  let ds := (cs.take count).takeWhile isHexDigit
  have hagain : ((ds ++ rest).take count).takeWhile isHexDigit = ds := take_again count cs rest h
  refine ⟨ds, rfl, (take_length_takeWhile isHexDigit cs count).symm, ?_⟩
  unfold scanFixed
  simp only [hagain, List.drop_left]
  rfl

theorem scanBraced_closed {ds : List Char} (hdigits : ∀ d ∈ ds, isHexDigit d) (hne : ds ≠ [])
    (rest : List Char) :
    scanBraced (ds ++ '\x7d' :: rest) =
      ⟨['u', '\x7b'] ++ ds ++ ['\x7d'], rest, charOf? (boundedHexValue ds),
        (charOf? (boundedHexValue ds)).isSome⟩ := by
  have hstop : ∀ c ∈ ('\x7d' :: rest).head?, isHexDigit c = false := by
    rintro _ ⟨⟩
    decide
  rw [scanBraced]
  simp only [takeWhile_append_stop hdigits hstop, dropWhile_append_stop hdigits hstop,
    List.isEmpty_iff, hne, if_false]

/-- Digits without a closing brace, or a brace without digits. -/
theorem scanBraced_open {ds : List Char} (hdigits : ∀ d ∈ ds, isHexDigit d) {rest : List Char}
    (hstop : ∀ c ∈ rest.head?, isHexDigit c = false)
    (hopen : ∀ more, rest = '\x7d' :: more → ds = []) :
    scanBraced (ds ++ rest) = ⟨['u', '\x7b'] ++ ds, rest, none, false⟩ := by
  rw [scanBraced]
  simp only [takeWhile_append_stop hdigits hstop, dropWhile_append_stop hdigits hstop]
  split
  case h_1 more =>
    obtain rfl := hopen more rfl
    rfl
  case h_2 => rfl

theorem scanBraced_again (h : rest.head? = (scanBraced cs).rest.head?) :
    ∃ ds, (scanBraced cs).lexeme = ['u', '\x7b'] ++ ds ∧ scanBraced (ds ++ rest) =
      ⟨['u', '\x7b'] ++ ds, rest, (scanBraced cs).value, (scanBraced cs).isValid⟩ := by
  have hdigits : ∀ d ∈ cs.takeWhile isHexDigit, isHexDigit d :=
    fun d hd => List.mem_takeWhile_imp hd
  have hsplit : cs.takeWhile isHexDigit ++ cs.dropWhile isHexDigit = cs :=
    List.takeWhile_append_dropWhile
  by_cases hclosed : ∃ more, cs.dropWhile isHexDigit = '\x7d' :: more ∧ cs.takeWhile isHexDigit ≠ []
  · obtain ⟨more, hmore, hne⟩ := hclosed
    rw [hmore] at hsplit
    have hscan := scanBraced_closed hdigits hne more
    rw [hsplit] at hscan
    rw [hscan]
    refine ⟨cs.takeWhile isHexDigit ++ ['\x7d'], List.append_assoc _ _ _, ?_⟩
    rw [List.append_assoc, List.singleton_append, scanBraced_closed hdigits hne, List.append_assoc]
  · have hopen : ∀ more, cs.dropWhile isHexDigit = '\x7d' :: more → cs.takeWhile isHexDigit = [] :=
      fun more hmore => by_contra fun hne => hclosed ⟨more, hmore, hne⟩
    have hscan := scanBraced_open hdigits head?_dropWhile hopen
    rw [hsplit] at hscan
    rw [hscan] at h ⊢
    refine ⟨cs.takeWhile isHexDigit, rfl, scanBraced_open hdigits ?_ fun more hmore => ?_⟩
    · rw [h]
      exact head?_dropWhile
    · rw [hmore] at h
      obtain ⟨tail, htail⟩ := List.head?_eq_some_iff.1 h.symm
      exact hopen tail htail

/-- An escape, valid or not, is read again as it is if the same character comes after it. -/
theorem scan_again (hrest : rest.head? = (scan cs).rest.head?) :
    scan ((scan cs).lexeme ++ rest) = ⟨(scan cs).lexeme, rest, (scan cs).value, (scan cs).isValid⟩ := by
  revert hrest
  fun_cases scan cs with
  | case1 =>
    intro hrest
    obtain rfl := List.head?_eq_none_iff.1 hrest
    rfl
  | case2 => exact fun _ => rfl
  | case3 => exact fun _ => rfl
  | case4 cs hcs =>
    intro hrest
    change scan ('\r' :: rest) = _
    rw [scan]
    rintro rest' rfl
    obtain ⟨cs', rfl⟩ := List.head?_eq_some_iff.1 hrest.symm
    exact hcs cs' rfl
  | case5 cs =>
    intro hrest
    obtain ⟨ds, hlexeme, -, hscan⟩ := scanFixed_again hrest
    rw [hlexeme]
    exact hscan
  | case6 cs =>
    intro hrest
    obtain ⟨ds, hlexeme, hscan⟩ := scanBraced_again hrest
    rw [hlexeme]
    exact hscan
  | case7 cs hcs =>
    intro hrest
    obtain ⟨ds, hlexeme, happend, hscan⟩ := scanFixed_again hrest
    have hhead : (ds ++ rest).head? = cs.head? := by
      rw [happend, List.head?_append, List.head?_append, hrest]
    rw [hlexeme]
    change scan ('u' :: (ds ++ rest)) = _
    rw [scan]
    · exact hscan
    · intro tail htail
      rw [htail] at hhead
      obtain ⟨more, hmore⟩ := List.head?_eq_some_iff.1 hhead.symm
      exact hcs more hmore
  | case8 cs =>
    intro hrest
    have hhead : rest.head? = cs.head? := hrest
    exact congrArg (fun d => Escape.mk ['0'] rest
      (some (if (d.map Char.isDigit).getD false then '0' else '\x00')) true) hhead
  | case9 c cs =>
    intro _
    change scan (c :: rest) = _
    rw [scan] <;> simp_all

end Escape

/-- Positions in two texts keep step when the same characters lead from related ones to related
ones. -/
def KeepsStep (R : Position → Position → Prop) : Prop :=
  ∀ p q c, R p q → R (p.advance c) (q.advance c)

theorem KeepsStep.advanceBy {R : Position → Position → Prop} (hR : KeepsStep R) {p q : Position}
    (h : R p q) (cs : List Char) : R (p.advanceBy cs) (q.advanceBy cs) := by
  induction cs generalizing p q with
  | nil => exact h
  | cons c cs ih => exact ih (hR p q c h)

/-- The same problem at related places. -/
structure Finding.Like (R : Position → Position → Prop) (f f' : Finding) : Prop where
  problem : f.problem = f'.problem
  start : R f.span.start f'.span.start
  stop : R f.span.stop f'.span.stop

namespace StringBody

variable {quote : Char} {p : Position} {cs : List Char}

theorem lexeme_ne_nil (h : (scan quote p cs).closed = true) : (scan quote p cs).lexeme ≠ [] := by
  fun_induction scan quote p cs with
  | case1 | case2 => cases h
  | case3 | case4 | case5 => exact List.cons_ne_nil _ _

/-- The inside of a literal is read again as it is, and so are its errors. If it is not closed, the
same character has to come after it. -/
theorem scan_again {R : Position → Position → Prop} (hR : KeepsStep R) {q : Position}
    (hpq : R p q) {rest : List Char}
    (hrest : (scan quote p cs).closed = true ∨ rest.head? = (scan quote p cs).rest.head?) :
    ∃ fs, List.Forall₂ (Finding.Like R) (scan quote p cs).findings fs ∧
      scan quote q ((scan quote p cs).lexeme ++ rest) = ⟨(scan quote p cs).lexeme, rest,
        (scan quote p cs).text, (scan quote p cs).closed, fs⟩ := by
  fun_induction scan quote p cs generalizing q
  case case1 =>
    obtain rfl := List.head?_eq_none_iff.1 (hrest.resolve_left Bool.false_ne_true)
    exact ⟨[], .nil, by rw [List.nil_append, scan]⟩
  case case2 p cs =>
    obtain ⟨tail, rfl⟩ := List.head?_eq_some_iff.1 (hrest.resolve_left Bool.false_ne_true)
    exact ⟨[], .nil, by rw [List.nil_append, scan, if_pos rfl]⟩
  case case3 p cs hnewline =>
    refine ⟨[], .nil, ?_⟩
    change scan quote q (quote :: rest) = _
    rw [scan, if_neg hnewline, if_pos rfl]
  case case4 p cs e _ hquote stop more found ih =>
    have hstop : R stop ((q.advance '\\').advanceBy e.lexeme) := hR.advanceBy (hR _ _ _ hpq) _
    obtain ⟨fs, hfs, hmore⟩ := ih hstop hrest
    have happend : more.lexeme ++ more.rest = e.rest := lexeme_append_rest quote stop e.rest
    have hhead : (more.lexeme ++ rest).head? = e.rest.head? := by
      rw [← happend]
      rcases hlexeme : more.lexeme with _ | ⟨d, ds⟩
      · -- The literal ends with the escape, so it is not closed.
        exact hrest.resolve_left fun hclosed => lexeme_ne_nil hclosed hlexeme
      · rfl
    have hescape : Escape.scan (e.lexeme ++ (more.lexeme ++ rest)) =
        ⟨e.lexeme, more.lexeme ++ rest, e.value, e.isValid⟩ := Escape.scan_again hhead
    let found' : List Finding := if e.isValid then []
      else [⟨.invalidEscape (String.ofList ('\\' :: e.lexeme)),
        ⟨q, (q.advance '\\').advanceBy e.lexeme⟩⟩]
    have hfound : List.Forall₂ (Finding.Like R) found found' := by
      unfold found found'
      split
      case isTrue => exact .nil
      case isFalse => exact .cons ⟨rfl, hpq, hstop⟩ .nil
    refine ⟨found' ++ fs, List.rel_append hfound hfs, ?_⟩
    change scan quote q ('\\' :: (e.lexeme ++ more.lexeme) ++ rest) = _
    rw [List.cons_append, List.append_assoc, scan, if_neg (by decide), if_neg hquote, if_pos rfl]
    simp only [hescape]
    rw [hmore]
  case case5 p c cs hnewline hquote hbackslash more ih =>
    obtain ⟨fs, hfs, hmore⟩ := ih (hR p q c hpq) hrest
    refine ⟨fs, hfs, ?_⟩
    change scan quote q (c :: (more.lexeme ++ rest)) = _
    rw [scan, if_neg hnewline, if_neg hquote, if_neg hbackslash]
    simp only
    rw [hmore]

end StringBody

end ExprLang
