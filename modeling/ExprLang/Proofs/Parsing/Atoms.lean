import ExprLang.Proofs.Parsing.Reads

/-!
Operands of one token. Such an operand is read as it stands unless what follows makes it the only
parameter of a lambda or goes on with an access or a call.
-/
namespace ExprLang

/-- An operand that is a single token. -/
inductive Atom where
  | literal (l : Literal)
  | identifier (name : String)
  | topic

namespace Atom

def token : Atom → TokenKind
  | literal l => l.token
  | identifier name => .identifier name
  | topic => .symbol .percent

def tree (span : Span) : Atom → Expr
  | literal l => .literal span l
  | identifier name => .identifier span name
  | topic => .topic span

end Atom

/-- What would make more of an operand before it. -/
def TokenKind.extendsOperand : TokenKind → Bool
  | .symbol .arrow | .symbol .dot | .symbol .colonColon | .symbol .leftBracket
  | .symbol .leftParen => true
  | _ => false

namespace Expr

open Parse
open TokenKind (front)

variable {expression : Parse Expr} {Q : Expr → Cursor → Prop} {c : Cursor} {ks : List TokenKind}

theorem startsWith_eq_false {k : TokenKind} (hk : front ks ≠ k) : startsWith k ks = false := by
  cases ks with
  | nil => rfl
  | cons k' ks => exact decide_eq_false fun he => hk (Option.some.inj he)

theorem reads_primary (a : Atom) (hc : c.Sees (a.token :: ks)) (harrow : front ks ≠ .symbol .arrow)
    (h : ∀ span, ∀ c' : Cursor, c'.Sees ks → Q (a.tree span) c') :
    (primary expression).Reads Q c := by
  refine .bind (.peek hc fun span => ?_)
  have hread : Reads (do Parse.advance; return a.tree span) Q c :=
    .bind (.advance hc fun c' hc' => .pure (h span c' hc'))
  cases a with
  | literal l =>
    cases l with
    | boolean b => cases b <;> exact hread
    | _ => exact hread
  | identifier name =>
    refine .bind (.ahead hc ?_)
    rw [startsWith_eq_false harrow]
    exact hread
  | topic => exact hread

theorem reads_access_done {start : Span} {e : Expr} (hc : c.Sees ks)
    (hks : (front ks).extendsOperand = false) (h : Q e c) :
    (access expression start e).Reads
      (fun r c' => r.Either (fun _ => False) fun b => Q b c') c := by
  refine .bind (.peekKind hc ?_)
  split
  all_goals first
    | exact .pure h
    | rename_i hk; rw [hk] at hks; cases hks

theorem reads_postfixed (a : Atom) (hc : c.Sees (a.token :: ks))
    (hks : (front ks).extendsOperand = false)
    (h : ∀ span, ∀ c' : Cursor, c'.Sees ks → Q (a.tree span) c') :
    (postfixed expression).Reads Q c := by
  have harrow : front ks ≠ .symbol .arrow := fun he => by rw [he] at hks; cases hks
  exact .bind (.any fun start => .bind (reads_primary a hc harrow fun span c' hc' =>
    .loop_end (reads_access_done hc' hks (h span c' hc'))))

end Expr

end ExprLang
