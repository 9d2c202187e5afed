import ExprLang.Proofs.Lexing.Strays

/-!
Recovery of the lexer. A stray character costs its own error and nothing else: with a space in its
place the text has the same tokens at the same lines and columns, and the errors that remain are the
other ones.
-/
namespace ExprLang

namespace Position

/-- Offsets are left out, as the two texts may need different numbers of bytes. -/
def SamePlace (p q : Position) : Prop := p.line = q.line ∧ p.column = q.column

theorem SamePlace.advance {p q : Position} (h : SamePlace p q) {c d : Char}
    (hcd : c = '\n' ↔ d = '\n') : SamePlace (p.advance c) (q.advance d) := by
  unfold Position.advance
  by_cases hc : c = '\n'
  · rw [if_pos hc, if_pos (hcd.1 hc)]
    exact ⟨congrArg (· + 1) h.1, rfl⟩
  · rw [if_neg hc, if_neg fun hd => hc (hcd.2 hd)]
    exact ⟨h.1, congrArg (· + 1) h.2⟩

theorem keepsStep_samePlace : KeepsStep SamePlace := fun _ _ _ h => h.advance Iff.rfl

end Position

open Position (SamePlace keepsStep_samePlace)

/-- The same kind of token at related places. -/
structure Token.Like (R : Position → Position → Prop) (t t' : Token) : Prop where
  kind : t.kind = t'.kind
  start : R t.span.start t'.span.start
  stop : R t.span.stop t'.span.stop

namespace Lexer

/-- The same tokens, and of the errors those that are not about stray characters. -/
structure Recovered (l l' : Lexed) : Prop where
  tokens : List.Forall₂ (Token.Like SamePlace) l.tokens l'.tokens
  findings : List.Forall₂ (Finding.Like SamePlace) (l.findings.filter fun f => !f.isStray)
    l'.findings

section Steps

variable {l l' : Lexed} {p q : Position} {c : Char} {cs rest : List Char} {s : Scanned}
  {fs fs' : List Finding}

theorem filter_findings (h : ∀ f ∈ fs, f.isStray = false) :
    (fs.filter fun f => !f.isStray) = fs :=
  List.filter_eq_self.2 fun f hf => by rw [h f hf]; rfl

theorem Recovered.endAt (hpq : SamePlace p q) (h : ∀ f ∈ fs, f.isStray = false)
    (hfs : List.Forall₂ (Finding.Like SamePlace) fs fs') :
    Recovered (endAt p fs) (endAt q fs') := by
  refine ⟨.cons ⟨rfl, hpq, hpq⟩ .nil, ?_⟩
  change List.Forall₂ _ (fs.filter _) fs'
  rwa [filter_findings h]

theorem Recovered.report (hl : Recovered l l') (h : ∀ f ∈ fs, f.isStray = false)
    (hfs : List.Forall₂ (Finding.Like SamePlace) fs fs') :
    Recovered (l.report fs) (l'.report fs') := by
  refine ⟨hl.tokens, ?_⟩
  change List.Forall₂ _ ((fs ++ l.findings).filter _) (fs' ++ l'.findings)
  rw [List.filter_append, filter_findings h]
  exact List.rel_append hfs hl.findings

/-- The error about a stray character is left out. -/
theorem Recovered.stray (hl : Recovered l l') (c : Char) (span : Span) :
    Recovered (l.report [⟨.unexpectedCharacter c, span⟩]) l' :=
  ⟨hl.tokens, hl.findings⟩

theorem Recovered.push (hl : Recovered l l') {t t' : Token} (ht : Token.Like SamePlace t t') :
    Recovered (l.push t) (l'.push t') :=
  ⟨.cons ht hl.tokens, hl.findings⟩

/-- Behind a token stands what stood there, or a space in place of a stray character. -/
theorem precedes_blankAt (hs : scanToken p c cs = some s) (budget : Nat) (stop : Position) :
    s.Precedes (blankAt (strays (scan budget stop s.rest)) stop s.rest) := by
  by_cases hfront : stop ∈ strays (scan budget stop s.rest)
  · obtain ⟨d, tail, htail, hspace⟩ := stray_front hfront
    refine .inr ⟨?_, fun f hf hopen => ?_⟩
    · rw [htail] at hfront ⊢
      rw [blankAt, if_pos hfront]
      exact apart_cons (by decide) _
    · have hnewline : d = '\n' := (problem_of_mem_token hs hf).2 hopen d (by rw [htail]; rfl)
      rw [hnewline] at hspace
      cases hspace
  · exact .inl (head?_blankAt hfront s.rest)

/-- Nothing is skipped before a token that is read again. -/
theorem between_lexeme {mode : TriviaMode} (ht : (Trivia.scan mode p cs).rest = c :: rest)
    {r : Position} (hs : scanToken r c rest = some s) {left : List Char} (hleft : s.Precedes left)
    (q : Position) :
    Trivia.scan .between q (s.lexeme ++ left) = ⟨[], s.lexeme ++ left, q, []⟩ := by
  have hspace : isTriviaSpace c = false := Trivia.not_isTriviaSpace_of_rest ht
  obtain ⟨tail, htail⟩ := exists_lexeme hs
  rw [htail, List.cons_append]
  by_cases hslash : c = '/'
  · subst hslash
    obtain ⟨hline, hblock⟩ := Trivia.not_comment_of_rest ht
    have hlexeme : s.lexeme = ['/'] := scanToken_slash hs
    have hrest : s.rest = rest := by
      have happend := (scanToken_append hs).1
      rw [hlexeme] at happend
      exact (List.cons.inj happend).2
    obtain rfl : tail = [] := (List.cons.inj (htail.symm.trans hlexeme)).2
    have halike : Alike rest left := hrest ▸ hleft.alike
    rw [List.nil_append, Trivia.scan, if_neg (by decide)]
    · exact fun more _ hmore => halike.ne_cons (by decide) hline more hmore
    · exact fun more _ hmore => halike.ne_cons (by decide) hblock more hmore
  · exact between_eq hspace hslash _ q

theorem scanAfter_nil {t : Trivia} (hrest : t.rest = []) (budget : Nat) :
    scanAfter budget t = Lexer.endAt t.stop t.findings := by
  unfold scanAfter
  rw [hrest]
  exact ite_self _

end Steps

section Blanked

variable {budget : Nat} {p : Position} {c : Char} {cs rest : List Char} {s : Scanned}

/-- Up to a stray character nothing changes, and behind it only what changes there. -/
theorem blankAt_stray (ht : (Trivia.scan .between p cs).rest = c :: rest) :
    let t := Trivia.scan .between p cs
    let next := t.stop.advance c
    let more := strays (scan budget next rest)
    blankAt (t.stop :: more) p cs = t.skipped ++ ([' '] ++ blankAt more next rest) := by
  intro t next more
  have hstop : p.advanceBy t.skipped = t.stop := (Trivia.stop_scan .between p cs).symm
  have hnext : t.stop.offset < next.offset := t.stop.offset_lt_advance c
  have hmarks : ∀ r ∈ t.stop :: more, (p.advanceBy t.skipped).offset ≤ r.offset := by
    rw [hstop]
    intro r hr
    rcases List.mem_cons.1 hr with rfl | hr
    · exact le_rfl
    · exact hnext.le.trans (offset_le_of_mem_strays hr)
  have happend : t.skipped ++ c :: rest = cs := by
    rw [← ht]
    exact Trivia.skipped_append_rest .between p cs
  calc blankAt (t.stop :: more) p cs
      = blankAt (t.stop :: more) p (t.skipped ++ c :: rest) := by rw [happend]
    _ = t.skipped ++ blankAt (t.stop :: more) t.stop (c :: rest) := by
        rw [blankAt_append _ hmarks, hstop]
    _ = t.skipped ++ ([' '] ++ blankAt (t.stop :: more) next rest) := by
        rw [blankAt, if_pos List.mem_cons_self]
        rfl
    _ = t.skipped ++ ([' '] ++ blankAt more next rest) := by rw [blankAt_cons rest hnext]

/-- Up to the end of a token nothing changes. -/
theorem blankAt_token (ht : (Trivia.scan .between p cs).rest = c :: rest)
    (hs : scanToken (Trivia.scan .between p cs).stop c rest = some s) :
    let t := Trivia.scan .between p cs
    let stop := t.stop.advanceBy s.lexeme
    let more := strays (scan budget stop s.rest)
    blankAt more p cs = t.skipped ++ (s.lexeme ++ blankAt more stop s.rest) := by
  intro t stop more
  have hstop : p.advanceBy (t.skipped ++ s.lexeme) = stop := by
    rw [Position.advanceBy_append, ← Trivia.stop_scan .between p cs]
  have hmarks : ∀ r ∈ more, (p.advanceBy (t.skipped ++ s.lexeme)).offset ≤ r.offset := by
    rw [hstop]
    exact fun r => offset_le_of_mem_strays
  have happend : cs = t.skipped ++ s.lexeme ++ s.rest := by
    rw [List.append_assoc]
    exact eq_append_lexeme ht hs
  calc blankAt more p cs
      = blankAt more p (t.skipped ++ s.lexeme ++ s.rest) := by rw [← happend]
    _ = t.skipped ++ s.lexeme ++ blankAt more stop s.rest := by
        rw [blankAt_append _ hmarks, hstop]
    _ = t.skipped ++ (s.lexeme ++ blankAt more stop s.rest) := List.append_assoc _ _ _

/-- What is skipped before a character is without errors. -/
theorem blank_skipped (ht : (Trivia.scan .between p cs).rest = c :: rest) :
    (Trivia.scan .between p cs).findings = [] ∧ Blank false (Trivia.scan .between p cs).skipped := by
  have hclean := Trivia.findings_of_rest ht
  have hblank := Trivia.blank_scan hclean
  rw [ht] at hblank
  exact ⟨hclean, hblank⟩

theorem samePlace_stop {q : Position} (hpq : SamePlace p q) (cs : List Char) :
    SamePlace (Trivia.scan .between p cs).stop
      (q.advanceBy (Trivia.scan .between p cs).skipped) := by
  rw [Trivia.stop_scan]
  exact keepsStep_samePlace.advanceBy hpq _

end Blanked

/-- Reading a text with spaces in place of its stray characters, as long as the errors leave room
for one more. -/
theorem recovered_scan {budget budget' : Nat} {p q : Position} {cs : List Char}
    (hpq : SamePlace p q) (hroom : (scan budget p cs).findings.length < budget)
    (hbudget : budget ≤ budget') :
    Recovered (scan budget p cs)
      (scan budget' q (blankAt (strays (scan budget p cs)) p cs)) := by
  fun_induction scan budget p cs generalizing q budget'
  case case1 budget p cs t left hleft =>
    have hfindings : t.findings.length < budget := hroom
    exact absurd hleft (Nat.sub_ne_zero_of_lt hfindings)
  case case2 budget p cs t left hleft hrest =>
    have ht : Trivia.Like SamePlace t (Trivia.scan .between q cs) :=
      Trivia.like_scan keepsStep_samePlace .between hpq
    rw [strays_endAt fun _ => isStray_of_mem_trivia, blankAt_nil, scan_eq,
      scanAfter_nil (ht.rest.symm.trans hrest)]
    exact .endAt ht.stop (fun _ => isStray_of_mem_trivia) ht.findings
  case case3 budget p cs t left hleft c rest hrest hs next ih =>
    obtain ⟨hclean, hgap⟩ := blank_skipped hrest
    have hleft_eq : left = budget := by
      change budget - t.findings.length = budget
      rw [hclean, List.length_nil, Nat.sub_zero]
    have hspace : Blank false [' '] := .space (by decide) .nil
    have hc : c = '\n' ↔ ' ' = '\n' := by
      have hc : isTriviaSpace c = false := Trivia.not_isTriviaSpace_of_rest hrest
      refine ⟨?_, fun h => absurd h (by decide)⟩
      rintro rfl
      cases hc
    have hmore : (scan (left - 1) next rest).findings.length + 1 < left := by
      have hlength : (t.findings ++ (⟨.unexpectedCharacter c, ⟨t.stop, next⟩⟩ ::
        (scan (left - 1) next rest).findings)).length < budget := hroom
      rwa [hclean, List.nil_append, List.length_cons, ← hleft_eq] at hlength
    have hplace : SamePlace next ((q.advanceBy t.skipped).advance ' ') :=
      (samePlace_stop hpq cs).advance hc
    rw [strays_report fun _ => isStray_of_mem_trivia, strays_stray, blankAt_stray hrest,
      scan_gap hgap, scan_gap hspace, hclean]
    exact (ih hplace (by omega) (by omega)).stray c _
  case case4 budget p cs t left hleft c rest hrest s hs stop left' more ih =>
    obtain ⟨hclean, hgap⟩ := blank_skipped hrest
    have hleft_eq : left = budget := by
      change budget - t.findings.length = budget
      rw [hclean, List.length_nil, Nat.sub_zero]
    have hlength : s.findings.length + more.findings.length < left := by
      have hlength : (t.findings ++ (s.findings ++ more.findings)).length < budget := hroom
      rwa [hclean, List.nil_append, List.length_append, ← hleft_eq] at hlength
    have hleft' : left' = left - s.findings.length := rfl
    have hmore : more = scan left' stop s.rest := if_neg (by omega)
    rw [hmore] at hlength
    rw [strays_report fun _ => isStray_of_mem_trivia, strays_token hs, hmore,
      blankAt_token hrest hs, hclean]
    have hprecedes : s.Precedes (blankAt (strays (scan left' stop s.rest)) stop s.rest) :=
      precedes_blankAt hs left' stop
    generalize blankAt (strays (scan left' stop s.rest)) stop s.rest = behind at ih hprecedes ⊢
    have hplace : SamePlace t.stop (q.advanceBy t.skipped) := samePlace_stop hpq cs
    obtain ⟨tail, htail⟩ := exists_lexeme hs
    obtain ⟨fs, hfs, hagain⟩ := scanToken_again keepsStep_samePlace hplace hs htail hprecedes
    have ht : Trivia.scan .between q (t.skipped ++ (s.lexeme ++ behind)) =
        (⟨[], c :: (tail ++ behind), q.advanceBy t.skipped, []⟩ : Trivia).skip t.skipped := by
      rw [Trivia.scan_blank hgap, between_lexeme hrest hs hprecedes, htail]
      rfl
    have hstop : SamePlace stop ((q.advanceBy t.skipped).advanceBy s.lexeme) :=
      keepsStep_samePlace.advanceBy hplace s.lexeme
    have hcount : s.findings.length = fs.length := hfs.length_eq
    have hrecovered : Recovered (scan left' stop s.rest)
        (scan (budget' - fs.length) ((q.advanceBy t.skipped).advanceBy s.lexeme) behind) :=
      ih hstop (by omega) (by omega)
    rw [scan_front (by omega) ht rfl rfl hagain]
    simp only
    rw [if_neg (by omega)]
    exact (hrecovered.report (fun _ hf => (problem_of_mem_token hs hf).1) hfs).push
      ⟨rfl, hplace, hstop⟩

theorem Recovered.not_isStray {l l' : Lexed} (h : Recovered l l') :
    ∀ f ∈ l'.findings, f.isStray = false := by
  have hkept : ∀ f ∈ l.findings.filter fun f => !f.isStray, f.isStray = false := fun f hf => by
    simpa using (List.mem_filter.1 hf).2
  have hlike := h.findings
  generalize (l.findings.filter fun f => !f.isStray) = fs at hkept hlike
  generalize l'.findings = fs' at hlike ⊢
  induction hlike with
  | nil => exact List.forall_mem_nil _
  | @cons f f' fs fs' hf _ ih =>
    obtain ⟨hf', hfs⟩ := List.forall_mem_cons.1 hkept
    refine List.forall_mem_cons.2 ⟨?_, ih hfs⟩
    rwa [Finding.isStray, ← hf.problem]

end Lexer

/-- The text with a space in place of each stray character. -/
def withoutStrays (text : String) : String :=
  String.ofList (Lexer.blankAt (Lexer.strays (lex text)) .start text.toList)

/-- Without its stray characters a text has the same tokens at the same lines and columns, and the
errors that remain are the other ones. -/
theorem recovery_neutral {text : String} (h : (lex text).findings.length < ErrorLog.limit) :
    List.Forall₂ (Token.Like SamePlace) (lex text).tokens (lex (withoutStrays text)).tokens ∧
      List.Forall₂ (Finding.Like SamePlace) ((lex text).findings.filter fun f => !f.isStray)
        (lex (withoutStrays text)).findings ∧
      ∀ f ∈ (lex (withoutStrays text)).findings, f.isStray = false := by
  have hrecovered : Lexer.Recovered (lex text) (lex (withoutStrays text)) := by
    have hscan := Lexer.recovered_scan (p := .start) (q := .start) ⟨rfl, rfl⟩ h le_rfl
    rw [withoutStrays, lex, lex, String.toList_ofList]
    exact hscan
  exact ⟨hrecovered.tokens, hrecovered.findings, hrecovered.not_isStray⟩

/-- Stray characters beside operators they could be a part of, and beside an error of a string. -/
theorem recovery_neutral_operators :
    let text := "a!?|?¬'\\q!'?=="
    let text' := "a  |? '\\q!' =="
    (lex text).findings.length < ErrorLog.limit ∧ withoutStrays text = text' ∧
      List.Forall₂ (Token.Like SamePlace) (lex text).tokens (lex text').tokens ∧
      List.Forall₂ (Finding.Like SamePlace) ((lex text).findings.filter fun f => !f.isStray)
        (lex text').findings ∧
      ∀ f ∈ (lex text').findings, f.isStray = false := by
  intro text text'
  have hroom : (lex text).findings.length < ErrorLog.limit := by decide +kernel
  have htext : withoutStrays text = text' := by decide +kernel
  have hneutral := recovery_neutral hroom
  rw [htext] at hneutral
  exact ⟨hroom, htext, hneutral⟩

end ExprLang
