import ExprLang.Token.Trivia

/-!
What stands between tokens: white space and comments. Exactly this is skipped, wherever it is
followed by something that is not a part of it.
-/
namespace ExprLang

/-- White space, closed block comments, and comments that end with their line; at the end of a text
also one that ends with the text. -/
inductive Blank (atEnd : Bool) : List Char → Prop
  | nil : Blank atEnd []
  | space {c : Char} {cs : List Char} (hc : isTriviaSpace c = true) (h : Blank atEnd cs) :
    Blank atEnd (c :: cs)
  | block {body cs : List Char} (hbody : ¬ ['*', '/'] <:+: body) (h : Blank atEnd cs) :
    Blank atEnd ('/' :: '*' :: (body ++ '*' :: '/' :: cs))
  | line {body cs : List Char} (hbody : '\n' ∉ body) (h : Blank atEnd cs) :
    Blank atEnd ('/' :: '/' :: (body ++ '\n' :: cs))
  | last {body : List Char} (hend : atEnd = true) (hbody : '\n' ∉ body) :
    Blank atEnd ('/' :: '/' :: body)

theorem not_isTriviaSpace_slash : isTriviaSpace '/' = false := by decide

namespace Trivia

/-- What is skipped from the middle of something on, in a text that is read without errors. -/
def Skips (atEnd : Bool) : TriviaMode → List Char → Prop
  | .between, cs => Blank atEnd cs
  | .line, cs => ∀ body, '\n' ∉ body → Blank atEnd ('/' :: '/' :: (body ++ cs))
  | .block _, cs => ∃ body rest, cs = body ++ '*' :: '/' :: rest ∧ ¬ ['*', '/'] <:+: body ∧
    Blank atEnd rest

theorem skips_scan (mode : TriviaMode) (p : Position) (cs : List Char)
    (hclean : (scan mode p cs).findings = []) :
    Skips (scan mode p cs).rest.isEmpty mode (scan mode p cs).skipped := by
  fun_induction scan mode p cs with
  | case1 => cases hclean
  | case2 start p cs ih => exact ⟨[], _, rfl, by simp, ih hclean⟩
  | case3 start p c cs hnot ih =>
    obtain ⟨body, rest, hskipped, hbody, hrest⟩ := ih hclean
    have happend := skipped_append_rest (.block start) (p.advance c) cs
    refine ⟨c :: body, rest, by rw [skip_skipped, hskipped]; rfl, fun hinfix => ?_, hrest⟩
    rcases List.infix_cons_iff.1 hinfix with hprefix | hinfix
    · -- The body would have ended here.
      obtain ⟨hc, tail, htail⟩ := List.cons_prefix_cons.1 hprefix
      rw [hskipped, ← htail] at happend
      exact hnot _ hc.symm happend.symm
    · exact hbody hinfix
  | case4 => exact fun body hbody => (List.append_nil body).symm ▸ .last rfl hbody
  | case5 p c cs ih =>
    intro body hbody
    by_cases hc : c = '\n'
    · subst hc
      rw [if_pos rfl] at ih hclean ⊢
      exact .line hbody (ih hclean)
    · rw [if_neg hc] at ih hclean ⊢
      have hblank := ih hclean (body ++ [c]) (by simp [hbody, Ne.symm hc])
      rwa [List.append_assoc] at hblank
  | case6 => exact .nil
  | case7 p cs ih => exact ih hclean [] (List.not_mem_nil)
  | case8 p cs ih =>
    obtain ⟨body, rest, hskipped, hbody, hrest⟩ := ih hclean
    rw [skip_skipped, hskipped]
    exact .block hbody hrest
  | case9 p c cs _ _ hspace ih => exact .space hspace (ih hclean)
  | case10 => exact .nil

theorem blank_scan {p : Position} {cs : List Char}
    (hclean : (scan .between p cs).findings = []) :
    Blank (scan .between p cs).rest.isEmpty (scan .between p cs).skipped :=
  skips_scan .between p cs hclean

/-- Nothing that could be skipped is left. -/
theorem not_isTriviaSpace_of_rest {mode : TriviaMode} {p : Position} {c : Char}
    {cs rest : List Char} (h : (scan mode p cs).rest = c :: rest) : isTriviaSpace c = false := by
  fun_induction scan mode p cs with
  | case10 p c' cs _ _ hspace =>
    obtain ⟨rfl, -⟩ := List.cons.inj h
    exact Bool.eq_false_iff.2 hspace
  | case1 | case4 | case6 => cases h
  | _ => simp_all

theorem stop_scan (mode : TriviaMode) (p : Position) (cs : List Char) :
    (scan mode p cs).stop = p.advanceBy (scan mode p cs).skipped := by
  fun_induction scan mode p cs <;> simp_all

theorem scan_space {c : Char} (hc : isTriviaSpace c = true) (p : Position) (cs : List Char) :
    scan .between p (c :: cs) = (scan .between (p.advance c) cs).skip [c] := by
  have hslash : c ≠ '/' := by
    rintro rfl
    rw [not_isTriviaSpace_slash] at hc
    cases hc
  rw [scan]
  · exact if_pos hc
  · exact fun _ h => absurd h hslash
  · exact fun _ h => absurd h hslash

theorem skip_skip (as bs : List Char) (t : Trivia) : (t.skip bs).skip as = t.skip (as ++ bs) := by
  simp only [skip, List.append_assoc]

theorem scan_line {body : List Char} (hbody : '\n' ∉ body) (p : Position) (cs : List Char) :
    scan .line p (body ++ '\n' :: cs) =
      (scan .between (p.advanceBy (body ++ ['\n'])) cs).skip (body ++ ['\n']) := by
  induction body generalizing p with
  | nil => exact congrArg (skip ['\n']) (by rw [if_pos rfl]; rfl)
  | cons c body ih =>
    have hc : c ≠ '\n' := fun h => hbody (h ▸ List.mem_cons_self)
    have hrest : '\n' ∉ body := fun h => hbody (List.mem_cons_of_mem c h)
    rw [List.cons_append, scan, if_neg hc, ih hrest, skip_skip]
    rfl

theorem scan_block {body : List Char} (hbody : ¬ ['*', '/'] <:+: body) (start p : Position)
    (cs : List Char) : scan (.block start) p (body ++ '*' :: '/' :: cs) =
      (scan .between (p.advanceBy (body ++ ['*', '/'])) cs).skip (body ++ ['*', '/']) := by
  induction body generalizing p with
  | nil => rfl
  | cons c body ih =>
    have hrest : ¬ ['*', '/'] <:+: body := fun h => hbody (List.infix_cons h)
    rw [List.cons_append, scan]
    · rw [ih hrest, skip_skip]
      rfl
    · rintro tail rfl htail
      cases body with
      | nil => exact absurd (List.cons.inj htail).1 (by decide)
      | cons d body =>
        obtain ⟨rfl, -⟩ := List.cons.inj htail
        exact hbody (List.IsPrefix.isInfix ⟨body, rfl⟩)

/-- What may stand between tokens is skipped, whatever comes after it. -/
theorem scan_blank {gap : List Char} (h : Blank false gap) (p : Position) (cs : List Char) :
    scan .between p (gap ++ cs) = (scan .between (p.advanceBy gap) cs).skip gap := by
  induction h generalizing p with
  | nil => rfl
  | space hc _ ih => rw [List.cons_append, scan_space hc, ih, skip_skip]; rfl
  | block hbody _ ih =>
    simp only [List.cons_append, List.append_assoc, scan, scan_block hbody, ih, skip_skip]
    simp [Position.advanceBy_append]
  | line hbody _ ih =>
    simp only [List.cons_append, List.append_assoc, scan, scan_line hbody, ih, skip_skip]
    simp [Position.advanceBy_append]
  | last hend => cases hend

end Trivia

end ExprLang
