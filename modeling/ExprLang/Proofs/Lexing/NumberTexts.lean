import ExprLang.Proofs.Lexing.Literals

/-!
Texts that are one number. Among the texts that begin as numbers they are those of the grammar, and
no error is reported about a number that belongs to it.
-/
namespace ExprLang

namespace Lexer

/-- The whole text is one number of this value, without errors. -/
def IsNumber (text : String) (x : Float) : Prop :=
  let stop := Position.start.advanceBy text.toList
  lex text = ⟨[⟨.number x, ⟨.start, stop⟩⟩, ⟨.endOfInput, .point stop⟩], []⟩

section Begins

variable {budget : Nat} {p : Position} {c : Char} {cs : List Char}

/-- Nothing is skipped before a number. -/
theorem between_of_beginsNumber (hbegins : beginsNumber c cs = true) (p : Position) :
    Trivia.scan .between p (c :: cs) = ⟨[], c :: cs, p, []⟩ := by
  rw [beginsNumber, Bool.or_eq_true, Bool.and_eq_true, decide_eq_true_eq] at hbegins
  rcases hbegins with hdigit | ⟨rfl, -⟩
  · refine between_eq (not_isTriviaSpace_of_isDigit hdigit) ?_ cs p
    rintro rfl
    cases hdigit
  · exact between_eq rfl (by decide) cs p

theorem scanToken_of_beginsNumber (hbegins : beginsNumber c cs = true) (p : Position) :
    scanToken p c cs = some (scanNumber p (c :: cs)) := by
  have hquote : ¬ (c = '"' ∨ c = '\'') := by
    rintro (rfl | rfl) <;> cases hbegins
  rw [scanToken_eq, if_neg hquote, if_pos hbegins]

theorem isNumber_of_scan {text : String} {x : Float} (htext : text.toList = c :: cs)
    (hbegins : beginsNumber c cs = true)
    (h : NumberLiteral.scan text.toList = ⟨text.toList, [], some x⟩) : IsNumber text x := by
  have hnumber : scanNumber .start (c :: cs) = ⟨.number x, text.toList, [], []⟩ := by
    rw [← htext, scanNumber, h]
    rfl
  have hs : scanToken .start c cs = some ⟨.number x, text.toList, [], []⟩ := by
    rw [scanToken_of_beginsNumber hbegins, hnumber]
  calc
    lex text = scan ErrorLog.limit .start (c :: cs) := by rw [lex, htext]
    _ = (scan ErrorLog.limit (Position.start.advanceBy text.toList) []).push
          ⟨.number x, ⟨.start, Position.start.advanceBy text.toList⟩⟩ :=
      scan_token (by decide) (between_of_beginsNumber hbegins _) rfl rfl hs rfl
    _ = _ := by
      rw [scan_end (t := ⟨[], [], _, []⟩) rfl rfl rfl]
      rfl

end Begins

section Findings

variable {budget : Nat} {p : Position} {c : Char} {cs : List Char} {f : Finding} {w : String}

theorem problem_of_mem_trivia {mode : TriviaMode} (h : f ∈ (Trivia.scan mode p cs).findings) :
    f.problem = .unterminatedComment := by
  fun_induction Trivia.scan mode p cs
  case case1 => rw [List.mem_singleton.1 h]
  case case4 | case6 | case10 => cases h
  case case2 ih | case3 ih | case5 ih | case7 ih | case8 ih | case9 ih => exact ih h

theorem problem_of_mem_string {quote : Char} (h : f ∈ (StringBody.scan quote p cs).findings) :
    ∃ w, f.problem = .invalidEscape w := by
  fun_induction StringBody.scan quote p cs with
  | case1 => cases h
  | case2 => cases h
  | case3 => cases h
  | case4 p cs _ _ e stop more found ih =>
    rcases List.mem_append.1 h with hfound | hmore
    · unfold found at hfound
      split at hfound
      · cases hfound
      · rw [List.mem_singleton.1 hfound]
        exact ⟨_, rfl⟩
    · exact ih hmore
  | case5 p c cs _ _ _ more ih => exact ih h

end Findings

end Lexer

open NumberLiteral Lexer

theorem Lexer.isNumber_of_isDecimal {text : String} (h : IsDecimal text.toList) :
    ∃ x, Reading.decimal? text.toList = some x ∧ IsNumber text x := by
  obtain ⟨x, hread, hscan⟩ := scan_isDecimal h
  obtain ⟨whole, point, fraction, e, hm, -, htext⟩ := isDecimal_iff.1 h
  obtain ⟨c, cs, hcs, hbegins⟩ := beginsNumber_mantissa (e := e) hm
  exact ⟨x, hread, isNumber_of_scan (htext.trans hcs) hbegins hscan⟩

end ExprLang
