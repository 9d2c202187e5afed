import ExprLang.Proofs.Lexing.NumberTexts

/-!
Stray characters. A character that begins no token is reported where it stands, and reading goes on
behind it. Here a text is taken with spaces in place of such characters, and what is skipped is
followed in it.
-/
namespace ExprLang

/-- A character was found that begins no token. -/
def Finding.isStray (f : Finding) : Bool :=
  match f.problem with
  | .unexpectedCharacter _ => true
  | _ => false

namespace Position

theorem offset_lt_advance (p : Position) (c : Char) : p.offset < (p.advance c).offset := by
  rw [advance_offset]
  exact Nat.lt_add_of_pos_right c.utf8Size_pos

theorem offset_le_advanceBy (p : Position) (cs : List Char) :
    p.offset ≤ (p.advanceBy cs).offset := by
  induction cs generalizing p with
  | nil => exact le_rfl
  | cons c cs ih => exact (p.offset_lt_advance c).le.trans (ih _)

end Position

namespace Trivia

variable {R : Position → Position → Prop} {p q : Position} {cs : List Char}

/-- The same is left, from related positions on, and the same errors were found. -/
structure Like (R : Position → Position → Prop) (t t' : Trivia) : Prop where
  rest : t.rest = t'.rest
  stop : R t.stop t'.stop
  findings : List.Forall₂ (Finding.Like R) t.findings t'.findings

/-- In the same, which began at related positions. -/
inductive LikeMode (R : Position → Position → Prop) : TriviaMode → TriviaMode → Prop
  | between : LikeMode R .between .between
  | line : LikeMode R .line .line
  | block {start start' : Position} (h : R start start') :
    LikeMode R (.block start) (.block start')

theorem Like.skip {t t' : Trivia} (h : Like R t t') (cs : List Char) :
    Like R (t.skip cs) (t'.skip cs) :=
  ⟨h.rest, h.stop, h.findings⟩

theorem like_scan (hR : KeepsStep R) {mode mode' : TriviaMode} (hmode : LikeMode R mode mode')
    (hpq : R p q) : Like R (scan mode p cs) (scan mode' q cs) := by
  fun_induction scan mode p cs generalizing mode' q with
  | case1 start p =>
    cases hmode with
    | block hstart => exact ⟨rfl, hpq, .cons ⟨rfl, hstart, hpq⟩ .nil⟩
  | case2 start p cs ih =>
    cases hmode with
    | block => exact (ih .between (hR _ _ _ (hR _ _ _ hpq))).skip _
  | case3 start p c cs hnot ih =>
    cases hmode with
    | block hstart =>
      rw [scan]
      · exact (ih (.block hstart) (hR _ _ _ hpq)).skip _
      · exact hnot
  | case4 =>
    cases hmode
    exact ⟨rfl, hpq, .nil⟩
  | case5 p c cs ih =>
    cases hmode
    refine (ih ?_ (hR _ _ _ hpq)).skip _
    split
    · exact .between
    · exact .line
  | case6 =>
    cases hmode
    exact ⟨rfl, hpq, .nil⟩
  | case7 p cs ih =>
    cases hmode
    exact (ih .line (hR _ _ _ (hR _ _ _ hpq))).skip _
  | case8 p cs ih =>
    cases hmode
    exact (ih (.block hpq) (hR _ _ _ (hR _ _ _ hpq))).skip _
  | case9 p c cs hline hblock hspace ih =>
    cases hmode
    rw [scan, if_pos hspace]
    · exact (ih .between (hR _ _ _ hpq)).skip _
    · exact hline
    · exact hblock
  | case10 p c cs hline hblock hspace =>
    cases hmode
    rw [scan, if_neg hspace]
    · exact ⟨rfl, hpq, .nil⟩
    · exact hline
    · exact hblock

/-- A comment that is not closed leaves nothing. -/
theorem findings_of_rest {mode : TriviaMode} {c : Char} {rest : List Char}
    (h : (scan mode p cs).rest = c :: rest) : (scan mode p cs).findings = [] := by
  fun_induction scan mode p cs with
  | case1 => cases h
  | case4 | case6 | case10 => rfl
  | case2 _ _ _ ih | case3 _ _ _ _ _ ih | case5 _ _ _ ih | case7 _ _ ih | case8 _ _ ih
  | case9 _ _ _ _ _ _ ih => exact ih h

/-- What is left does not begin with a comment. -/
theorem not_comment_of_rest {mode : TriviaMode} {rest : List Char}
    (h : (scan mode p cs).rest = '/' :: rest) :
    (∀ tail, rest = '/' :: tail → False) ∧ ∀ tail, rest = '*' :: tail → False := by
  fun_induction scan mode p cs with
  | case1 | case4 | case6 => cases h
  | case10 p c cs hline hblock =>
    obtain ⟨rfl, rfl⟩ := List.cons.inj h
    exact ⟨fun tail htail => hline tail rfl htail, fun tail htail => hblock tail rfl htail⟩
  | case2 _ _ _ ih | case3 _ _ _ _ _ ih | case5 _ _ _ ih | case7 _ _ ih | case8 _ _ ih
  | case9 _ _ _ _ _ _ ih => exact ih h

end Trivia

namespace StringBody

/-- A literal that is not closed ends with its line or with the text. -/
theorem rest_of_open {quote : Char} {p : Position} {cs : List Char}
    (h : (scan quote p cs).closed = false) : ∀ c ∈ (scan quote p cs).rest.head?, c = '\n' := by
  fun_induction scan quote p cs with
  | case1 =>
    intro c hc
    cases hc
  | case2 =>
    intro c hc
    cases hc
    rfl
  | case3 => cases h
  | case4 p cs e _ _ stop more found ih => exact ih h
  | case5 p c cs _ _ _ more ih => exact ih h

end StringBody

namespace Lexer

variable {budget : Nat} {p q : Position} {c : Char} {cs rest : List Char} {s : Scanned}

section Scanning

theorem isStray_of_mem_trivia {mode : TriviaMode} {f : Finding}
    (h : f ∈ (Trivia.scan mode p cs).findings) : f.isStray = false := by
  rw [Finding.isStray, problem_of_mem_trivia h]

theorem problem_of_mem_token {f : Finding} (hs : scanToken p c cs = some s)
    (h : f ∈ s.findings) : f.isStray = false ∧
      (f.problem = .unterminatedString → ∀ d ∈ s.rest.head?, d = '\n') := by
  rw [scanToken_eq] at hs
  split at hs
  case isTrue =>
    cases hs
    rcases List.mem_append.1 h with hbody | hend
    · obtain ⟨w, hescape⟩ := problem_of_mem_string hbody
      rw [Finding.isStray, hescape]
      exact ⟨rfl, nofun⟩
    · split at hend
      case isTrue => cases hend
      case isFalse hopen =>
        obtain rfl := List.mem_singleton.1 hend
        exact ⟨rfl, fun _ => StringBody.rest_of_open (Bool.eq_false_iff.2 hopen)⟩
  case isFalse =>
  split at hs
  case isTrue =>
    cases hs
    unfold scanNumber at h
    simp only at h
    split at h
    case isTrue => cases h
    case isFalse =>
      obtain rfl := List.mem_singleton.1 h
      exact ⟨rfl, nofun⟩
  case isFalse =>
  split at hs
  case isTrue =>
    cases hs
    cases h
  case isFalse =>
    obtain ⟨r, -, rfl⟩ := Option.map_eq_some_iff.1 hs
    cases h

/-- How reading goes on behind what is skipped. -/
def scanAfter (budget : Nat) (t : Trivia) : Lexed :=
  let budget := budget - t.findings.length
  if budget = 0 then endAt t.stop t.findings
  else match t.rest with
    | [] => endAt t.stop t.findings
    | c :: rest =>
      match scanToken t.stop c rest with
      | none =>
        let next := t.stop.advance c
        ((scan (budget - 1) next rest).report [⟨.unexpectedCharacter c, ⟨t.stop, next⟩⟩]).report
          t.findings
      | some s =>
        let stop := t.stop.advanceBy s.lexeme
        let budget := budget - s.findings.length
        let more := if budget = 0 then endAt stop [] else scan budget stop s.rest
        ((more.report s.findings).push ⟨s.kind, ⟨t.stop, stop⟩⟩).report t.findings

theorem scan_eq (budget : Nat) (p : Position) (cs : List Char) :
    scan budget p cs = scanAfter budget (Trivia.scan .between p cs) := by
  fun_cases scan budget p cs with
  | case1 t budget' hb => exact (if_pos hb).symm
  | case2 t budget' hb hrest =>
    refine Eq.trans ?_ (if_neg hb).symm
    rw [hrest]
  | case3 t budget' hb c rest hrest hs next =>
    refine Eq.trans ?_ (if_neg hb).symm
    rw [hrest]
    simp only
    rw [hs]
  | case4 t budget' hb c rest hrest s hs stop budget'' more =>
    refine Eq.trans ?_ (if_neg hb).symm
    rw [hrest]
    simp only
    rw [hs]

/-- What may be skipped changes nothing. -/
theorem scan_gap {gap : List Char} (hgap : Blank false gap) (budget : Nat) (p : Position)
    (cs : List Char) : scan budget p (gap ++ cs) = scan budget (p.advanceBy gap) cs := by
  rw [scan_eq, scan_eq, Trivia.scan_blank hgap]
  rfl

end Scanning

section Marks

/-- Where the stray characters stand. -/
def strays (l : Lexed) : List Position := (l.findings.filter Finding.isStray).map (·.span.start)

variable {l : Lexed} {r : Position} {fs : List Finding}

theorem strays_report (h : ∀ f ∈ fs, f.isStray = false) : strays (l.report fs) = strays l := by
  have hnone : fs.filter Finding.isStray = [] :=
    List.filter_eq_nil_iff.2 fun f hf => by rw [h f hf]; exact Bool.false_ne_true
  rw [strays, Lexed.report, List.filter_append, hnone]
  rfl

theorem strays_endAt (h : ∀ f ∈ fs, f.isStray = false) : strays (endAt p fs) = [] := by
  have hnone : fs.filter Finding.isStray = [] :=
    List.filter_eq_nil_iff.2 fun f hf => by rw [h f hf]; exact Bool.false_ne_true
  rw [strays, endAt, hnone]
  rfl

theorem strays_stray (p q : Position) (c : Char) (l : Lexed) :
    strays (l.report [⟨.unexpectedCharacter c, ⟨p, q⟩⟩]) = p :: strays l := rfl

theorem strays_token (hs : scanToken p c cs = some s) (t : Token) (l : Lexed) :
    strays ((l.report s.findings).push t) = strays l :=
  strays_report fun _ hf => (problem_of_mem_token hs hf).1

theorem offset_lt_lexeme (hs : scanToken p c cs = some s) :
    p.offset < (p.advanceBy s.lexeme).offset := by
  obtain ⟨tail, htail⟩ := exists_lexeme hs
  rw [htail]
  exact (p.offset_lt_advance c).trans_le (Position.offset_le_advanceBy _ tail)

theorem offset_le_stop (mode : TriviaMode) (p : Position) (cs : List Char) :
    p.offset ≤ (Trivia.scan mode p cs).stop.offset := by
  rw [Trivia.stop_scan]
  exact p.offset_le_advanceBy _

theorem offset_le_of_mem_strays (h : r ∈ strays (scan budget p cs)) : p.offset ≤ r.offset := by
  fun_induction scan budget p cs with
  | case1 | case2 =>
    rw [strays_endAt fun _ => isStray_of_mem_trivia] at h
    cases h
  | case3 budget p cs t budget' hb c rest hrest hs next ih =>
    have hstop : p.offset ≤ t.stop.offset := offset_le_stop .between p cs
    rw [strays_report fun _ => isStray_of_mem_trivia, strays_stray] at h
    rcases List.mem_cons.1 h with rfl | h
    · exact hstop
    · exact hstop.trans ((t.stop.offset_lt_advance c).le.trans (ih h))
  | case4 budget p cs t budget' hb c rest hrest s hs stop budget'' more ih =>
    have hstop : p.offset ≤ t.stop.offset := offset_le_stop .between p cs
    rw [strays_report fun _ => isStray_of_mem_trivia, strays_token hs] at h
    unfold more at h
    split at h
    case isTrue =>
      rw [strays_endAt (List.forall_mem_nil _)] at h
      cases h
    case isFalse => exact hstop.trans ((offset_lt_lexeme hs).le.trans (ih h))

/-- Nothing is skipped before a stray character at the front. -/
theorem stray_front (h : p ∈ strays (scan budget p cs)) :
    ∃ c rest, cs = c :: rest ∧ isTriviaSpace c = false := by
  have hlater {q r : Position} (hr : r.offset ≤ q.offset) (hp : p.offset < r.offset)
      {budget : Nat} {cs : List Char} : p ∉ strays (scan budget q cs) := fun hmem =>
    absurd (offset_le_of_mem_strays hmem) (by omega)
  revert h
  fun_cases scan budget p cs with
  | case1 | case2 =>
    rw [strays_endAt fun _ => isStray_of_mem_trivia]
    exact nofun
  | case3 t budget' hb c rest hrest hs next =>
    intro h
    have hstop : p.offset ≤ t.stop.offset := offset_le_stop .between p cs
    have hnext : p.offset < next.offset := hstop.trans_lt (t.stop.offset_lt_advance c)
    rw [strays_report fun _ => isStray_of_mem_trivia, strays_stray] at h
    have hp : p = t.stop := (List.mem_cons.1 h).resolve_right (hlater le_rfl hnext)
    have hskipped : t.skipped = [] := by
      by_contra hne
      obtain ⟨d, ds, hds⟩ := List.exists_cons_of_ne_nil hne
      have hadvance : t.stop = (p.advance d).advanceBy ds := by
        rw [Trivia.stop_scan .between p cs]
        exact congrArg p.advanceBy hds
      have hd := (p.offset_lt_advance d).trans_le ((p.advance d).offset_le_advanceBy ds)
      rw [← hadvance, ← hp] at hd
      exact lt_irrefl _ hd
    have happend : t.skipped ++ t.rest = cs := Trivia.skipped_append_rest .between p cs
    rw [hskipped, hrest] at happend
    exact ⟨c, rest, happend.symm, Trivia.not_isTriviaSpace_of_rest hrest⟩
  | case4 t budget' hb c rest hrest s hs stop budget'' more =>
    intro h
    have hstop : p.offset ≤ t.stop.offset := offset_le_stop .between p cs
    have hnext : p.offset < stop.offset := hstop.trans_lt (offset_lt_lexeme hs)
    rw [strays_report fun _ => isStray_of_mem_trivia, strays_token hs] at h
    unfold more at h
    split at h
    case isTrue =>
      rw [strays_endAt (List.forall_mem_nil _)] at h
      cases h
    case isFalse => exact absurd h (hlater le_rfl hnext)

end Marks

section Blanking

/-- The text with a space in place of each character that begins at one of the positions. -/
def blankAt (ps : List Position) : Position → List Char → List Char
  | _, [] => []
  | p, c :: cs => (if p ∈ ps then ' ' else c) :: blankAt ps (p.advance c) cs

variable {ps : List Position} {r : Position}

theorem blankAt_nil (p : Position) (cs : List Char) : blankAt [] p cs = cs := by
  induction cs generalizing p with
  | nil => rfl
  | cons c cs ih => rw [blankAt, if_neg List.not_mem_nil, ih]

/-- Nothing changes before the first of the positions. -/
theorem blankAt_append {as : List Char} (bs : List Char)
    (h : ∀ r ∈ ps, (p.advanceBy as).offset ≤ r.offset) :
    blankAt ps p (as ++ bs) = as ++ blankAt ps (p.advanceBy as) bs := by
  induction as generalizing p with
  | nil => rfl
  | cons c as ih =>
    have hp : p ∉ ps := fun hmem => by
      have hlt := (p.offset_lt_advance c).trans_le ((p.advance c).offset_le_advanceBy as)
      exact absurd (h p hmem) (Nat.not_le.2 hlt)
    rw [List.cons_append, blankAt, if_neg hp, ih h]
    rfl

/-- A position that has been passed does not count. -/
theorem blankAt_cons (cs : List Char) (h : r.offset < p.offset) :
    blankAt (r :: ps) p cs = blankAt ps p cs := by
  induction cs generalizing p with
  | nil => rfl
  | cons c cs ih =>
    have hne : p ≠ r := by
      rintro rfl
      exact lt_irrefl _ h
    rw [blankAt, blankAt, ih (h.trans (p.offset_lt_advance c))]
    simp only [List.mem_cons, hne, false_or]

theorem head?_blankAt (h : p ∉ ps) (cs : List Char) : (blankAt ps p cs).head? = cs.head? := by
  cases cs with
  | nil => rfl
  | cons c cs => rw [blankAt, if_neg h, List.head?_cons, List.head?_cons]

end Blanking

end Lexer

end ExprLang
