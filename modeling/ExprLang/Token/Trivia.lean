import ExprLang.Problem
import ExprLang.Text.Blank

/-! White space and comments, which separate tokens and are otherwise skipped. -/
namespace ExprLang

/-- White space between tokens includes the byte order mark. -/
def isTriviaSpace (c : Char) : Bool := Text.isWhiteSpace c || c = '\uFEFF'

/-- Outside comments, in a comment that ends with its line, or in a block comment. -/
inductive TriviaMode where
  | between
  | line
  | block (start : Position)

structure Trivia where
  skipped : List Char
  rest : List Char
  -- Where the rest begins.
  stop : Position
  findings : List Finding

namespace Trivia

def skip (cs : List Char) (t : Trivia) : Trivia := { t with skipped := cs ++ t.skipped }

/-- Skips to the next character that may begin a token. A block comment that is not closed is
skipped to the end of the text and reported. -/
def scan : TriviaMode → Position → List Char → Trivia
  | .block start, p, [] => ⟨[], [], p, [⟨.unterminatedComment, ⟨start, p⟩⟩]⟩
  | .block _, p, '*' :: '/' :: cs =>
    (scan .between ((p.advance '*').advance '/') cs).skip ['*', '/']
  | .block start, p, c :: cs => (scan (.block start) (p.advance c) cs).skip [c]
  | .line, p, [] => ⟨[], [], p, []⟩
  | .line, p, c :: cs => (scan (if c = '\n' then .between else .line) (p.advance c) cs).skip [c]
  | .between, p, [] => ⟨[], [], p, []⟩
  | .between, p, '/' :: '/' :: cs => (scan .line ((p.advance '/').advance '/') cs).skip ['/', '/']
  | .between, p, '/' :: '*' :: cs =>
    (scan (.block p) ((p.advance '/').advance '*') cs).skip ['/', '*']
  | .between, p, c :: cs =>
    if isTriviaSpace c then (scan .between (p.advance c) cs).skip [c] else ⟨[], c :: cs, p, []⟩

@[simp] theorem skip_skipped (cs : List Char) (t : Trivia) :
    (t.skip cs).skipped = cs ++ t.skipped := rfl

@[simp] theorem skip_rest (cs : List Char) (t : Trivia) : (t.skip cs).rest = t.rest := rfl

@[simp] theorem skip_stop (cs : List Char) (t : Trivia) : (t.skip cs).stop = t.stop := rfl

theorem skipped_append_rest (mode : TriviaMode) (p : Position) (cs : List Char) :
    (scan mode p cs).skipped ++ (scan mode p cs).rest = cs := by
  fun_induction scan mode p cs <;> simp_all

theorem length_rest_le (mode : TriviaMode) (p : Position) (cs : List Char) :
    (scan mode p cs).rest.length ≤ cs.length := by
  have h := congrArg List.length (skipped_append_rest mode p cs)
  rw [List.length_append] at h
  omega

end Trivia

end ExprLang
