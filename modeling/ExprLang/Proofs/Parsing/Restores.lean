import ExprLang.Proofs.Precedence
import ExprLang.Proofs.Shapes

/-!
Parsers that give back what was written. A parser takes the tokens of a tree and stops there, if
the token that follows cannot go on with what was read; each level of operators asks for more of
that token.
-/
namespace ExprLang

open TokenKind (front)

variable {α γ : Type}

namespace Parse

/-- From these tokens, with any tokens after them that may follow, the parser takes just these, and
what it gives is the same as `x` under `f`. -/
def Restores (f : α → γ) (follow : TokenKind → Prop) (m : Parse α) (ks : List TokenKind) (x : α) :
    Prop :=
  ∀ c more, c.Sees (ks ++ more) → follow (front more) →
    m.Reads (fun a c' => f a = f x ∧ c'.Sees more) c

theorem Restores.reads {f : α → γ} {follow : TokenKind → Prop} {m : Parse α} {ks : List TokenKind}
    {x : α} (h : Restores f follow m ks x) {c : Cursor} {more : List TokenKind}
    {Q : α → Cursor → Prop} (hc : c.Sees (ks ++ more)) (hmore : follow (front more))
    (hQ : ∀ a, f a = f x → ∀ c' : Cursor, c'.Sees more → Q a c') : m.Reads Q c :=
  (h c more hc hmore).mono fun a c' hr => hQ a hr.1 c' hr.2

theorem Restores.mono {f : α → γ} {follow follow' : TokenKind → Prop} {m : Parse α}
    {ks : List TokenKind} {x : α} (h : Restores f follow m ks x)
    (hfollow : ∀ k, follow' k → follow k) : Restores f follow' m ks x :=
  fun c more hc hmore => h c more hc (hfollow _ hmore)

end Parse

/-- Whether an expression ends before the token, whatever the expression is. -/
def TokenKind.closes : TokenKind → Bool
  | .endOfInput | .symbol .rightParen | .symbol .rightBracket | .symbol .rightBrace
  | .symbol .comma | .keyword .then_ | .keyword .else_ => true
  | _ => false

/-- The same, but for the `else` that would be taken for that of a conditional before it. -/
def TokenKind.endsItem : TokenKind → Bool
  | .endOfInput | .symbol .rightParen | .symbol .rightBracket | .symbol .rightBrace
  | .symbol .comma | .keyword .then_ => true
  | _ => false

/-- What a token must not do to the expression before it. -/
structure TokenKind.Closing (k : TokenKind) : Prop where
  not_extends : k.extendsOperand = false
  ne_caret : k ≠ .symbol .caret
  ofToken?_eq : InfixOp.ofToken? k = none
  ne_pipe : k ≠ .symbol .pipe
  ne_pipeQuestion : k ≠ .symbol .pipeQuestion

namespace TokenKind

variable {k : TokenKind}

theorem closing (h : k.closes = true) : k.Closing := by
  unfold closes at h
  split at h
  all_goals first
    | exact ⟨rfl, by decide, rfl, by decide, by decide⟩
    | cases h

theorem closes_of_endsItem (h : k.endsItem = true) : k.closes = true := by
  unfold endsItem at h
  split at h
  all_goals first
    | rfl
    | cases h

end TokenKind

namespace Expr

open Parse

section Levels

variable {follow : TokenKind → Prop} {expression nested operand : Parse Expr}
  {ks : List TokenKind} {t : Expr}

/-- Ends the accesses and calls after an operand. -/
theorem restores_postfixed (hfollow : ∀ k, follow k → k.extendsOperand = false)
    (h : (primary expression).Restores eraseSpans follow ks t) :
    (postfixed expression).Restores eraseSpans follow ks t := by
  intro c more hc hmore
  have hends : (front more).extendsOperand = false := hfollow _ hmore
  exact .bind (.any fun start => .bind (h.reads hc hmore fun e he d hd =>
    .loop_end (reads_access_done hd hends ⟨he, hd⟩)))

theorem restores_prefixed (hfollow : ∀ k, follow k → k ≠ .symbol .caret)
    (hfront : ∀ more, UnaryOp.ofToken? (front (ks ++ more)) = none)
    (h : (postfixed expression).Restores eraseSpans follow ks t) :
    (prefixed expression nested).Restores eraseSpans follow ks t := by
  intro c more hc hmore
  refine .bind (.any fun start => .bind (.peekKind hc ?_))
  rw [hfront more]
  exact .bind (h.reads hc hmore fun e he d hd =>
    .bind (.eat_false hd (hfollow _ hmore) (.pure ⟨he, hd⟩)))

theorem restores_infixChain {level : Nat} (hfollow : ∀ k, follow k → InfixOp.atLevel level k = none)
    (h : operand.Restores eraseSpans follow ks t) :
    (infixChain level operand).Restores eraseSpans follow ks t := by
  intro c more hc hmore
  refine .bind (.any fun start => .bind (h.reads hc hmore fun e he d hd => .loop_end ?_))
  refine .bind (.peekKind hd ?_)
  rw [hfollow _ hmore]
  exact .pure ⟨he, hd⟩

/-- From the tightest operators on down to those that may follow. -/
theorem restores_infixes {n : Nat} (hn : n ≤ InfixOp.tightest)
    (hfollow : ∀ k, follow k → ∀ level, InfixOp.tightest - n < level →
      InfixOp.atLevel level k = none)
    (h : operand.Restores eraseSpans follow ks t) :
    (infixes operand n).Restores eraseSpans follow ks t := by
  induction n with
  | zero => exact h
  | succ n ih =>
    have hlevel : InfixOp.tightest - (n + 1) < InfixOp.tightest - n := by omega
    refine restores_infixChain (fun k hk => hfollow k hk _ hlevel) (ih (by omega) ?_)
    exact fun k hk level hless => hfollow k hk level (by omega)

theorem restores_pipeline
    (hfollow : ∀ k, follow k → k ≠ .symbol .pipe ∧ k ≠ .symbol .pipeQuestion)
    (h : (infixes operand InfixOp.tightest).Restores eraseSpans follow ks t) :
    (pipeline operand).Restores eraseSpans follow ks t := by
  intro c more hc hmore
  obtain ⟨hpipe, hquestion⟩ := hfollow _ hmore
  refine .bind (.any fun start => .bind (h.reads hc hmore fun e he d hd => .bind ?_))
  refine .loop_end (.bind (.peekKind hd ?_))
  split
  · exact absurd ‹_› hpipe
  · exact absurd ‹_› hquestion
  · exact .pure (.pure ⟨he, hd⟩)

/-- Before a token that ends every expression an operand is a whole expression. -/
theorem restores_of_operand (hfollow : ∀ k, follow k → k.closes = true)
    (h : operand.Restores eraseSpans follow ks t) :
    (pipeline operand).Restores eraseSpans follow ks t := by
  have hclosing : ∀ k, follow k → k.Closing := fun k hk => TokenKind.closing (hfollow k hk)
  refine restores_pipeline (fun k hk => ⟨(hclosing k hk).ne_pipe, (hclosing k hk).ne_pipeQuestion⟩)
    (restores_infixes (Nat.le_refl _) (fun k hk level _ => ?_) h)
  rw [InfixOp.atLevel, (hclosing k hk).ofToken?_eq]
  rfl

theorem restores_of_primary (hfollow : ∀ k, follow k → k.closes = true)
    (hfront : ∀ more, UnaryOp.ofToken? (front (ks ++ more)) = none)
    (h : (primary expression).Restores eraseSpans follow ks t) :
    (pipeline (prefixed expression nested)).Restores eraseSpans follow ks t := by
  have hclosing : ∀ k, follow k → k.Closing := fun k hk => TokenKind.closing (hfollow k hk)
  have hpostfixed : (postfixed expression).Restores eraseSpans follow ks t :=
    restores_postfixed (fun k hk => (hclosing k hk).not_extends) h
  exact restores_of_operand hfollow
    (restores_prefixed (fun k hk => (hclosing k hk).ne_caret) hfront hpostfixed)

theorem eraseSpans_node {left left' right right' : Expr}
    (hleft : left'.eraseSpans = left.eraseSpans)
    (hright : right'.eraseSpans = right.eraseSpans) (span span' : Span) (op : InfixOp) :
    (op.node span' left' right').eraseSpans = (op.node span left right).eraseSpans := by
  cases op <;> simp only [InfixOp.node, eraseSpans, hleft, hright]

theorem restores_infixChain_node {level : Nat} {op : InfixOp} {left right : Expr}
    {ls rs : List TokenKind} (span : Span)
    (hop : InfixOp.atLevel level op.token = some op)
    (hfollow : ∀ k, follow k → InfixOp.atLevel level k = none)
    (hleft : operand.Restores eraseSpans (· = op.token) ls left)
    (hright : operand.Restores eraseSpans follow rs right) :
    (infixChain level operand).Restores eraseSpans follow (ls ++ op.token :: rs)
      (op.node span left right) := by
  intro c more hc hmore
  rw [List.append_assoc, List.cons_append] at hc
  refine .bind (.any fun start => .bind (hleft.reads hc rfl fun e he d hd => ?_))
  refine .loop_once (I := fun e d => e.eraseSpans = (op.node span left right).eraseSpans ∧
    d.Sees more) (.bind (.peekKind hd ?_)) fun e d hd => ?_
  · have hfront : InfixOp.atLevel level (front (op.token :: (rs ++ more))) = some op := hop
    rw [hfront]
    refine .bind (.advance hd fun d' hd' => .bind ?_)
    refine hright.reads hd' hmore fun e' he' d'' hd'' => ?_
    refine .bind (.any fun span' => .pure ⟨⟨eraseSpans_node he he' span span' op, hd''⟩, ?_⟩)
    exact hd.length_lt hd'' (by simp only [List.length_cons, List.length_append]; omega)
  · refine .bind (.peekKind hd.2 ?_)
    rw [hfollow _ hmore]
    exact .pure hd

/-- The levels below that of the operator read its operands, its own level reads it, and those above
pass it on. -/
theorem restores_infixes_node {op : InfixOp} (hop : op ≠ .binary .pow) {n : Nat}
    (hlevel : InfixOp.tightest < op.level + n) (hn : n ≤ InfixOp.tightest)
    {left right : Expr} {ls rs : List TokenKind} (span : Span)
    (hfollow : ∀ k, follow k → InfixOp.ofToken? k = none)
    (hleft : operand.Restores eraseSpans (· = op.token) ls left)
    (hright : operand.Restores eraseSpans follow rs right) :
    (infixes operand n).Restores eraseSpans follow (ls ++ op.token :: rs)
      (op.node span left right) := by
  have hat : ∀ level,
      InfixOp.atLevel level op.token = if op.level = level then some op else none := by
    intro level
    rw [InfixOp.atLevel, InfixOp.ofToken?_token hop, Option.filter_some]
    by_cases h : op.level = level <;> simp [h]
  have hnone : ∀ k, follow k → ∀ level, InfixOp.atLevel level k = none := by
    intro k hk level
    rw [InfixOp.atLevel, hfollow k hk]
    rfl
  induction n with
  | zero =>
    have htight : op.level ≤ InfixOp.tightest := by
      rcases op with _ | ⟨⟨⟩⟩ | ⟨⟨⟩⟩
      all_goals first
        | decide
        | exact absurd rfl hop
    omega
  | succ n ih =>
    by_cases hown : op.level = InfixOp.tightest - n
    · refine restores_infixChain_node span ?_ (fun k hk => hnone k hk _) ?_ ?_
      · rw [hat, if_pos hown]
      · refine restores_infixes (by omega) ?_ hleft
        rintro _ rfl level hless
        rw [hat, if_neg (by omega)]
      · exact restores_infixes (by omega) (fun k hk level _ => hnone k hk level) hright
    · exact restores_infixChain (fun k hk => hnone k hk _) (ih (by omega) (by omega))

end Levels

end Expr

end ExprLang
