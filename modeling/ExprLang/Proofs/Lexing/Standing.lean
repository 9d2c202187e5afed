import ExprLang.Proofs.Lexing.Again

/-!
Lexemes that stand for themselves. What was read as a token is read again as the same token, with
the same errors, wherever the same character comes after it as before. What comes after it may also
be a blank or the end of the text, unless it is a string that is not closed.
-/
namespace ExprLang

namespace Lexer

variable {p : Position} {c : Char} {cs rest : List Char} {s : Scanned}

theorem scanSymbol_lexeme {k : Symbol} {lexeme : List Char}
    (h : scanSymbol cs = some (k, lexeme, rest)) : lexeme = k.text.toList := by
  unfold scanSymbol at h
  split at h
  all_goals simp only [Option.some.injEq, Prod.mk.injEq, reduceCtorEq] at h
  all_goals
    obtain ⟨rfl, rfl, -⟩ := h
    rfl

theorem scanSymbol_again {k : Symbol} {lexeme left : List Char}
    (h : scanSymbol cs = some (k, lexeme, left)) (hrest : Alike left rest) :
    scanSymbol (lexeme ++ rest) = some (k, lexeme, rest) := by
  have hne : ∀ d, isTriviaSpace d = false → (∀ tail, left = d :: tail → False) →
      ∀ tail, rest = d :: tail → False := fun d => hrest.ne_cons
  revert h
  fun_cases scanSymbol cs with
  | case3 _ hequal hgreater =>
    rintro ⟨⟩
    rw [List.singleton_append, scanSymbol]
    · exact hne '=' (by decide) hequal
    · exact hne '>' (by decide) hgreater
  | case5 _ hequal =>
    rintro ⟨⟩
    rw [List.singleton_append, scanSymbol]
    exact hne '=' (by decide) hequal
  | case7 _ hequal =>
    rintro ⟨⟩
    rw [List.singleton_append, scanSymbol]
    exact hne '=' (by decide) hequal
  | case9 _ hquestion =>
    rintro ⟨⟩
    rw [List.singleton_append, scanSymbol]
    exact hne '?' (by decide) hquestion
  | case11 _ hcolon =>
    rintro ⟨⟩
    rw [List.singleton_append, scanSymbol]
    exact hne ':' (by decide) hcolon
  | _ => rintro ⟨⟩ <;> rfl

/-- The lexeme is read as a token of this kind wherever it is apart from what follows. -/
def Stands (k : TokenKind) (lexeme : List Char) : Prop :=
  ∀ rest, Apart rest → ∃ c cs, lexeme ++ rest = c :: cs ∧
    (∀ p, Trivia.scan .between p (c :: cs) = ⟨[], c :: cs, p, []⟩) ∧
    ∀ p, scanToken p c cs = some ⟨k, lexeme, rest, []⟩

/-- Whether a token may stand before a text as it stood before what was left of its own. -/
def Scanned.Precedes (s : Scanned) (rest : List Char) : Prop :=
  rest.head? = s.rest.head? ∨ Apart rest ∧ ∀ f ∈ s.findings, f.problem ≠ .unterminatedString

theorem Scanned.Precedes.alike (h : s.Precedes rest) : Alike s.rest rest := h.imp_right And.left

section Again

variable {R : Position → Position → Prop} {q : Position}

theorem scanString_again (hR : KeepsStep R) (hpq : R p q)
    (hrest : (scanString c p cs).Precedes rest) :
    ∃ fs, List.Forall₂ (Finding.Like R) (scanString c p cs).findings fs ∧
      scanString c q ((scanString c p cs).lexeme.tail ++ rest) =
        ⟨(scanString c p cs).kind, (scanString c p cs).lexeme, rest, fs⟩ := by
  let body := StringBody.scan c (p.advance c) cs
  let left (p : Position) : List Finding :=
    if body.closed then [] else [⟨.unterminatedString, ⟨p, p.advanceBy (c :: body.lexeme)⟩⟩]
  have hclosed : body.closed = true ∨ rest.head? = body.rest.head? := by
    rcases hrest with hsame | ⟨-, hstring⟩
    · exact .inr hsame
    · refine .inl (by_contra fun hopen => ?_)
      have hleft : (⟨.unterminatedString, ⟨p, p.advanceBy (c :: body.lexeme)⟩⟩ : Finding) ∈
          body.findings ++ left p :=
        List.mem_append_right _ (by rw [show left p = [_] from if_neg hopen]; exact .head _)
      exact hstring _ hleft rfl
  obtain ⟨fs, hfs, hbody⟩ := StringBody.scan_again hR (hR p q c hpq) hclosed
  have hends : List.Forall₂ (Finding.Like R) (left p) (left q) := by
    unfold left
    split
    case isTrue => exact .nil
    case isFalse => exact .cons ⟨rfl, hpq, hR.advanceBy hpq _⟩ .nil
  refine ⟨fs ++ left q, List.rel_append hfs hends, ?_⟩
  change scanString c q (body.lexeme ++ rest) = _
  rw [scanString, hbody]
  rfl

theorem scanNumber_again (hR : KeepsStep R) (hpq : R p q)
    (hrest : Alike (scanNumber p cs).rest rest) :
    ∃ fs, List.Forall₂ (Finding.Like R) (scanNumber p cs).findings fs ∧
      scanNumber q ((scanNumber p cs).lexeme ++ rest) =
        ⟨(scanNumber p cs).kind, (scanNumber p cs).lexeme, rest, fs⟩ := by
  let n := NumberLiteral.scan cs
  let found (p : Position) : List Finding :=
    if n.value.isSome then []
    else [⟨.invalidNumber (String.ofList n.lexeme), ⟨p, p.advanceBy n.lexeme⟩⟩]
  have hfound : List.Forall₂ (Finding.Like R) (found p) (found q) := by
    unfold found
    split
    case isTrue => exact .nil
    case isFalse => exact .cons ⟨rfl, hpq, hR.advanceBy hpq _⟩ .nil
  refine ⟨found q, hfound, ?_⟩
  change scanNumber q (n.lexeme ++ rest) = _
  rw [scanNumber, NumberLiteral.scan_again hrest]
  rfl

theorem scanWord_again (hrest : Alike (scanWord cs).rest rest) :
    scanWord ((scanWord cs).lexeme ++ rest) =
      ⟨(scanWord cs).kind, (scanWord cs).lexeme, rest, []⟩ := by
  have hpart := fun c => not_isIdentifierPart_of_isTriviaSpace (c := c)
  change scanWord (cs.takeWhile isIdentifierPart ++ rest) = _
  rw [scanWord, takeWhile_again hpart hrest, dropWhile_again hpart hrest]
  rfl

end Again

/-- What begins with a point and a digit is a number of at least two characters. -/
theorem scanNumber_point {d : Char} (hd : d.isDigit = true) (cs : List Char) :
    ∃ more, (scanNumber p ('.' :: d :: cs)).lexeme = '.' :: d :: more := by
  let e := NumberLiteral.exponentPart ((d :: cs).dropWhile Char.isDigit)
  refine ⟨cs.takeWhile Char.isDigit ++ e.lexeme ++ e.rest.takeWhile isIdentifierPart, ?_⟩
  change '.' :: ((d :: cs).takeWhile Char.isDigit ++ e.lexeme ++
    e.rest.takeWhile isIdentifierPart) = _
  rw [List.takeWhile_cons_of_pos hd]
  rfl

theorem symbol_point {k : Symbol} {tail : List Char} (h : k.text.toList = '.' :: tail) :
    tail = [] := by
  cases k with
  | dot => exact (List.cons.inj h).2.symm
  | _ => exact absurd (List.cons.inj h).1 (by decide)

/-- Whether a number begins with this character and what follows. -/
def beginsNumber (c : Char) (cs : List Char) : Bool :=
  c.isDigit || (c = '.' && (cs.head?.map Char.isDigit).getD false)

theorem scanToken_eq (p : Position) (c : Char) (cs : List Char) :
    scanToken p c cs =
      if c = '"' ∨ c = '\'' then some (scanString c p cs)
      else if beginsNumber c cs then some (scanNumber p (c :: cs))
      else if isIdentifierStart c then some (scanWord (c :: cs))
      else (scanSymbol (c :: cs)).map fun r => ⟨.symbol r.1, r.2.1, r.2.2, []⟩ :=
  rfl

theorem beginsNumber_again {tail : List Char} (h : beginsNumber c cs = true)
    (htail : (scanNumber p (c :: cs)).lexeme = c :: tail) (rest : List Char) :
    beginsNumber c (tail ++ rest) = true := by
  rcases hdigit : c.isDigit with _ | _
  · rw [beginsNumber, hdigit, Bool.false_or, Bool.and_eq_true, decide_eq_true_eq] at h
    obtain ⟨rfl, hhead⟩ := h
    cases cs with
    | nil => cases hhead
    | cons d cs =>
      obtain ⟨more, hmore⟩ := scanNumber_point (p := p) (show d.isDigit = true from hhead) cs
      rw [hmore] at htail
      rw [← (List.cons.inj htail).2]
      exact hhead
  · rw [beginsNumber, hdigit, Bool.true_or]

theorem not_beginsNumber_symbol {k : Symbol} {tail left : List Char}
    (h : ¬ beginsNumber c cs = true) (hk : scanSymbol (c :: cs) = some (k, c :: tail, left))
    (hrest : Alike left rest) : ¬ beginsNumber c (tail ++ rest) = true := by
  rw [beginsNumber, Bool.or_eq_true, Bool.and_eq_true, decide_eq_true_eq, not_or] at h ⊢
  refine ⟨h.1, ?_⟩
  rintro ⟨rfl, hhead⟩
  obtain rfl : tail = [] := symbol_point (scanSymbol_lexeme hk).symm
  have hcs : '.' :: cs = '.' :: left := ((scanSymbol_append hk).1).symm
  have hdigit : ∀ d ∈ left.head?, d.isDigit = false := by
    intro d hd
    rw [← (List.cons.inj hcs).2, Option.mem_def] at hd
    by_contra hdigit
    exact h.2 ⟨rfl, by rw [hd]; exact Bool.not_eq_false _ ▸ hdigit⟩
  have hrest := hrest.head hdigit fun d => not_isDigit_of_isTriviaSpace
  rw [List.nil_append] at hhead
  cases hd : rest.head? with
  | none =>
    rw [hd] at hhead
    cases hhead
  | some d =>
    rw [hd] at hhead
    have hfalse := hrest d hd
    rw [show d.isDigit = true from hhead] at hfalse
    cases hfalse

theorem not_beginsNumber_word (h : isIdentifierStart c = true) (cs : List Char) :
    ¬ beginsNumber c cs = true := by
  rw [beginsNumber, Bool.or_eq_true, Bool.and_eq_true, decide_eq_true_eq]
  rintro (hdigit | ⟨rfl, -⟩)
  · rw [not_isIdentifierStart (.inr (.inl hdigit))] at h
    cases h
  · rw [not_isIdentifierStart (.inr (.inr (by decide)))] at h
    cases h

theorem exists_lexeme (h : scanToken p c cs = some s) : ∃ tail, s.lexeme = c :: tail := by
  obtain ⟨happend, hne⟩ := scanToken_append h
  obtain ⟨d, tail, hd⟩ := List.exists_cons_of_ne_nil hne
  rw [hd] at happend
  exact ⟨tail, (List.cons.inj happend).1 ▸ hd⟩

/-- A token is read again as it is, and so are its errors. -/
theorem scanToken_again {R : Position → Position → Prop} (hR : KeepsStep R) {q : Position}
    (hpq : R p q) (h : scanToken p c cs = some s) {tail : List Char}
    (htail : s.lexeme = c :: tail) (hrest : s.Precedes rest) :
    ∃ fs, List.Forall₂ (Finding.Like R) s.findings fs ∧
      scanToken q c (tail ++ rest) = some ⟨s.kind, s.lexeme, rest, fs⟩ := by
  have hagain : c :: (tail ++ rest) = s.lexeme ++ rest := by rw [htail]; rfl
  rw [scanToken_eq] at h ⊢
  split at h
  case isTrue hquote =>
    cases h
    obtain ⟨fs, hfs, hscan⟩ := scanString_again hR hpq hrest
    have htail' : tail = (scanString c p cs).lexeme.tail := (congrArg List.tail htail).symm
    exact ⟨fs, hfs, by rw [if_pos hquote, htail', hscan]⟩
  case isFalse hquote =>
  rw [if_neg hquote]
  split at h
  case isTrue hnumber =>
    cases h
    obtain ⟨fs, hfs, hscan⟩ := scanNumber_again hR hpq hrest.alike
    exact ⟨fs, hfs, by rw [if_pos (beginsNumber_again hnumber htail rest), hagain, hscan]⟩
  case isFalse hnumber =>
  split at h
  case isTrue hstart =>
    cases h
    refine ⟨[], .nil, ?_⟩
    rw [if_neg (not_beginsNumber_word hstart _), if_pos hstart, hagain, scanWord_again hrest.alike]
  case isFalse hstart =>
    obtain ⟨⟨k, lexeme, left⟩, hs, rfl⟩ := Option.map_eq_some_iff.1 h
    obtain rfl : lexeme = c :: tail := htail
    refine ⟨[], .nil, ?_⟩
    rw [if_neg (not_beginsNumber_symbol hnumber hs hrest.alike), if_neg hstart, hagain,
      scanSymbol_again hs hrest.alike]
    rfl

/-- A slash that is read as a token is all of it. -/
theorem scanToken_slash (h : scanToken p '/' cs = some s) : s.lexeme = ['/'] := by
  rw [scanToken_eq, if_neg (by decide), if_neg (by simp [beginsNumber]),
    if_neg (by rw [not_isIdentifierStart (by decide)]; decide)] at h
  obtain ⟨⟨k, lexeme, left⟩, hs, rfl⟩ := Option.map_eq_some_iff.1 h
  cases hs
  rfl

/-- A token that was read without errors stands for itself. -/
theorem stands_of_scanToken (hc : isTriviaSpace c = false) (h : scanToken p c cs = some s)
    (hclean : s.findings = []) : Stands s.kind s.lexeme := by
  intro rest hrest
  have hprecedes : s.Precedes rest := .inr ⟨hrest, hclean ▸ List.forall_mem_nil _⟩
  obtain ⟨tail, htail⟩ := exists_lexeme h
  have hscan (q : Position) : scanToken q c (tail ++ rest) = some ⟨s.kind, s.lexeme, rest, []⟩ := by
    obtain ⟨fs, hfs, hscan⟩ :=
      scanToken_again (fun _ _ _ => id : KeepsStep fun _ _ => True) trivial h htail hprecedes
    rw [hclean, List.forall₂_nil_left_iff] at hfs
    rwa [hfs] at hscan
  refine ⟨c, tail ++ rest, by rw [htail]; rfl, fun q => ?_, hscan⟩
  by_cases hslash : c = '/'
  · subst hslash
    obtain rfl : tail = [] := (List.cons.inj (htail.symm.trans (scanToken_slash h))).2
    rw [Trivia.scan, if_neg (by rw [hc]; exact Bool.false_ne_true)]
    · exact fun _ _ => hrest.ne_cons (by decide) _
    · exact fun _ _ => hrest.ne_cons (by decide) _
  · exact between_eq hc hslash _ q

end Lexer

end ExprLang
