import ExprLang.Proofs.Parsing.Expressible
import ExprLang.Proofs.Parsing.Restores

/-!
Lists of parts. A loop that reads one item after another goes along the list that was written: what
it has read and what is left make up that list.
-/
namespace ExprLang

open Parse
open TokenKind (front)

variable {α γ : Type}

/-- Items read so far, with those of a list that are left. -/
structure Along (f : α → γ) (xs items left : List α) : Prop where
  suffix : left <:+ xs
  same : items.map f ++ left.map f = xs.map f

namespace Along

variable {f : α → γ} {xs items left : List α} {x y : α}

theorem start : Along f xs [] xs := ⟨List.suffix_rfl, rfl⟩

theorem next (h : Along f xs items (x :: left)) (hy : f y = f x) :
    Along f xs (items ++ [y]) left where
  suffix := (List.suffix_cons x left).trans h.suffix
  same := by
    rw [List.map_append, List.append_assoc, ← h.same]
    simp [hy]

theorem mem (h : Along f xs items (x :: left)) : x ∈ xs := h.suffix.subset List.mem_cons_self

theorem done (h : Along f xs items []) : items.map f = xs.map f := by
  rw [← h.same, List.map_nil, List.append_nil]

end Along

/-- Items up to the closing symbol, if no item can begin with it. -/
theorem restores_delimited {close : Symbol} (hclose : close ≠ .comma) {item : Parse α} {f : α → γ}
    {tokens : α → List TokenKind} {xs : List α} (trailing : Bool)
    (hitem : ∀ x ∈ xs,
      item.Restores f (fun k => k = .symbol .comma ∨ k = .symbol close) (tokens x) x)
    (hfront : ∀ x ∈ xs, ∀ more, front (tokens x ++ more) ≠ .symbol close) :
    (Expr.delimited close item).Restores (List.map f) (fun _ => True)
      (TokenKind.listed trailing (xs.map tokens) ++ [.symbol close]) xs := by
  intro c more hc _
  have hcomma : (TokenKind.symbol close) ≠ .symbol .comma :=
    fun he => hclose (TokenKind.symbol.inj he)
  have hend : front (TokenKind.listed trailing (([] : List α).map tokens) ++
    .symbol close :: more) = .symbol close := rfl
  rw [List.append_assoc] at hc
  refine .bind (.mono (Q := fun items d => items.map f = xs.map f ∧
    d.Sees (.symbol close :: more)) (.loop (I := fun items d => ∃ left, Along f xs items left ∧
      d.Sees (TokenKind.listed trailing (left.map tokens) ++ .symbol close :: more))
      ⟨xs, .start, hc⟩ ?_) ?_)
  · rintro items d ⟨left, halong, hd⟩
    refine .bind (.peekKind hd ?_)
    cases left with
    | nil =>
      rw [if_pos hend]
      exact .pure ⟨halong.done, hd⟩
    | cons x left =>
      have hx := hitem x halong.mem
      rw [List.map_cons, TokenKind.listed, List.append_assoc] at hd ⊢
      rw [if_neg (hfront x halong.mem _)]
      by_cases hlast : (left.map tokens).isEmpty && !trailing
      · rw [if_pos hlast, List.nil_append] at hd
        obtain rfl : left = [] := by simpa using (Bool.and_eq_true_iff.1 hlast).1
        refine .bind (hx.reads hd (.inr rfl) fun y hy d' hd' => ?_)
        exact .bind (.eat_false hd' hcomma (.pure ⟨(halong.next hy).done, hd'⟩))
      · rw [if_neg hlast, List.cons_append] at hd
        refine .bind (hx.reads hd (.inl rfl) fun y hy d' hd' => ?_)
        refine .bind (.eat_true hd' fun d'' hd'' => .pure ⟨⟨left, halong.next hy, hd''⟩, ?_⟩)
        exact hd.length_lt hd'' (by simp only [List.length_cons, List.length_append]; omega)
  · rintro items d ⟨hitems, hd⟩
    exact .bind (.expect hd fun d' hd' => .pure ⟨hitems, hd'⟩)

namespace Expr

variable {s : Style} {expression operand : Parse Expr} {c : Cursor} {ks more : List TokenKind}

theorem reads_propertyName {Q : Name → Cursor → Prop} {name : String}
    (hc : c.Sees (TokenKind.ofName name :: ks))
    (h : ∀ span, ∀ c' : Cursor, c'.Sees ks → Q ⟨name, span⟩ c') :
    Parse.expectPropertyName.Reads Q c := by
  refine .bind (.peek hc fun span => ?_)
  have hread : ∀ text, text = name → Reads (do
      advance
      return (⟨text, span⟩ : Name)) Q c :=
    fun _ htext => htext ▸ .bind (.advance hc fun c' hc' => .pure (h span c' hc'))
  rw [show front (TokenKind.ofName name :: ks) = TokenKind.ofName name from rfl]
  rcases TokenKind.ofName_eq name with hname | ⟨k, hname, htext⟩
  · rw [hname]
    exact hread name rfl
  · rw [hname]
    exact hread k.text htext

theorem restores_property {p : Property Expr} (hkey : p.key.Expressible)
    {follow : TokenKind → Prop}
    (hvalue : expression.Restores eraseSpans follow (p.value.itemTokens s) p.value) :
    (property expression).Restores Property.eraseSpans follow (p.tokens s) p := by
  intro c more hc hmore
  refine .bind (.peek hc fun span => ?_)
  have hafter : ∀ key : Key, key.eraseSpan = p.key.eraseSpan → ∀ d : Cursor,
      d.Sees (.symbol .colon :: (p.value.itemTokens s ++ more)) → Reads (do
        expect (.symbol .colon)
        let value ← expression
        return (⟨key, value, ← spanFrom span⟩ : Property Expr))
        (fun a c' => a.eraseSpans = p.eraseSpans ∧ c'.Sees more) d := by
    intro key hsame d hd
    refine .bind (.expect hd fun d' hd' => .bind (hvalue.reads hd' hmore fun e he d'' hd'' => ?_))
    refine .bind (.any fun span' => .pure ⟨?_, hd''⟩)
    rw [Property.eraseSpans, hsame, he, Property.eraseSpans]
  obtain ⟨key, value, span'⟩ := p
  cases hkey with
  | @name id hid =>
    have hname : Reads (do
        let key ← pure (Key.name (← expectPropertyName))
        expect (.symbol .colon)
        let value ← expression
        return (⟨key, value, ← spanFrom span⟩ : Property Expr))
        (fun a c' => a.eraseSpans = Property.eraseSpans ⟨.name id, value, span'⟩ ∧ c'.Sees more)
        c :=
      .bind (reads_propertyName hc fun span'' d hd =>
        .bind (.pure (hafter (.name ⟨id.text, span''⟩) rfl d hd)))
    rw [show front (Property.tokens s ⟨.name id, value, span'⟩ ++ more) = TokenKind.ofName id.text
      from rfl]
    rcases TokenKind.ofName_eq id.text with hkind | ⟨k, hkind, -⟩ <;> rw [hkind] <;> exact hname
  | string =>
    exact .bind (.advance hc fun d hd =>
      .bind (.pure (hafter (.literal (.string _) span) rfl d hd)))
  | number hx =>
    exact .bind (.advance hc fun d hd =>
      .bind (.pure (hafter (.literal (.number _) span) rfl d hd)))

theorem restores_argument {a : Argument Expr} {follow : TokenKind → Prop}
    (hvalue : ∀ e, a = .value e →
      (∀ more, front (e.itemTokens s ++ more) ≠ .symbol .hash) ∧
        expression.Restores eraseSpans follow (e.itemTokens s) e) :
    (argument expression).Restores Argument.eraseSpans follow (argumentTokens s a) a := by
  intro c more hc hmore
  refine .bind (.peek hc fun span => ?_)
  cases a with
  | placeholder span' => exact .bind (.advance hc fun d hd => .pure ⟨rfl, hd⟩)
  | value e =>
    obtain ⟨hhash, hrestores⟩ := hvalue e rfl
    split
    · rename_i he
      exact absurd (Token.mk.inj he).1 (hhash more)
    · exact .bind (hrestores.reads hc hmore fun e' he d hd =>
        .pure ⟨congrArg Argument.value he, hd⟩)

theorem restores_elements {es : List (Option Expr)}
    (hes : ∀ e, some e ∈ es →
      (∀ more, front (e.itemTokens s ++ more) ∉ [.symbol .comma, .symbol .rightBracket]) ∧
      expression.Restores eraseSpans (· = .symbol .comma) (e.itemTokens s) e) :
    (elements expression).Restores (List.map (Option.map eraseSpans)) (fun _ => True)
      (elementsTokens s es ++ [.symbol .rightBracket]) es := by
  intro c more hc _
  rw [List.append_assoc, elementsTokens_eq_flatMap] at hc
  have hcomma : (TokenKind.symbol .comma) ≠ .symbol .rightBracket := by decide
  let rest : List (Option Expr) → List TokenKind := fun left =>
    left.flatMap (fun e => elementTokens s e ++ [.symbol .comma]) ++ .symbol .rightBracket :: more
  refine .bind (.mono (Q := fun items d =>
    items.map (Option.map eraseSpans) = es.map (Option.map eraseSpans) ∧
      d.Sees (.symbol .rightBracket :: more)) (.loop (I := fun items d => ∃ left,
      Along (Option.map eraseSpans) es items left ∧ d.Sees (rest left)) ⟨es, .start, hc⟩ ?_) ?_)
  · rintro items d ⟨left, halong, hd⟩
    refine .bind (.peekKind hd ?_)
    rcases left with _ | ⟨_ | e, left⟩
    · rw [if_pos (show front (rest []) = .symbol .rightBracket from rfl)]
      exact .pure ⟨halong.done, hd⟩
    · have hrest : rest (none :: left) = .symbol .comma :: rest left := rfl
      rw [hrest] at hd ⊢
      rw [if_neg (show front (.symbol .comma :: rest left) ≠ .symbol .rightBracket from hcomma)]
      refine .bind (.eat_true hd fun d' hd' => .pure ⟨⟨left, halong.next rfl, hd'⟩, ?_⟩)
      exact hd.length_lt hd' (Nat.lt_succ_self _)
    · have hrest : rest (some e :: left) = e.itemTokens s ++ .symbol .comma :: rest left := by
        simp [rest, elementTokens, itemTokens]
      obtain ⟨hfront, hrestores⟩ := hes e halong.mem
      have hne := hfront (.symbol .comma :: rest left)
      rw [hrest] at hd ⊢
      rw [if_neg fun he => hne (by rw [he]; decide)]
      refine .bind (.eat_false hd (fun he => hne (by rw [he]; decide)) (.bind ?_))
      refine hrestores.reads hd rfl fun e' he d' hd' => .bind (.eat_true hd' fun d'' hd'' => ?_)
      refine .pure ⟨⟨left, halong.next (congrArg some he), hd''⟩, ?_⟩
      exact hd.length_lt hd'' (by simp only [List.length_cons, List.length_append]; omega)
  · rintro items d ⟨hitems, hd⟩
    exact .bind (.expect hd fun d' hd' => .pure ⟨hitems, hd'⟩)

/-- Whether the token goes on with a pipe. -/
def pipes (k : TokenKind) : Prop := k = .symbol .pipe ∨ k = .symbol .pipeQuestion

theorem pipes_token (st : Stage Expr) : pipes st.token := by
  unfold Stage.token
  cases st.optional
  · exact .inl rfl
  · exact .inr rfl

theorem restores_stages {head : Expr} {hs : List TokenKind} {ss : List (Stage Expr)}
    {follow : TokenKind → Prop} (span : Span) (hne : ss ≠ [])
    (hfollow : ∀ k, follow k → k.closes = true)
    (hhead : (infixes operand InfixOp.tightest).Restores eraseSpans pipes hs head)
    (hss : ∀ st ∈ ss, (infixes operand InfixOp.tightest).Restores eraseSpans
      (fun k => follow k ∨ pipes k) (st.body.operandTokens s) st.body) :
    (pipeline operand).Restores eraseSpans follow (hs ++ ss.flatMap (·.tokens s))
      (.pipe span head ss) := by
  intro c more hc hmore
  have hclosing := TokenKind.closing (hfollow _ hmore)
  let rest : List (Stage Expr) → List TokenKind := fun left => left.flatMap (·.tokens s) ++ more
  have hrest : ∀ st left, rest (st :: left) = st.token :: (st.body.operandTokens s ++ rest left) := by
    intro st left
    simp [rest, Stage.tokens]
  have hfront : ∀ left, follow (front (rest left)) ∨ pipes (front (rest left)) := by
    intro left
    cases left with
    | nil => exact .inl hmore
    | cons st left => exact .inr (hrest st left ▸ pipes_token st)
  have hstart : pipes (front (rest ss)) := by
    obtain ⟨st, left, rfl⟩ := List.exists_cons_of_ne_nil hne
    exact hrest st left ▸ pipes_token st
  have hstage : ∀ st left stages d, Along Stage.eraseSpans ss stages (st :: left) →
      d.Sees (rest (st :: left)) → Reads (do
        advance
        return Progress.more (stages ++ [⟨st.optional, ← infixes operand InfixOp.tightest⟩]))
        (fun r d' => r.Either (fun stages' => (∃ left', Along Stage.eraseSpans ss stages' left' ∧
            d'.Sees (rest left')) ∧ d'.rest.length < d.rest.length)
          fun stages' => stages'.map Stage.eraseSpans = ss.map Stage.eraseSpans ∧ d'.Sees more)
        d := by
    intro st left stages d halong hd
    rw [hrest] at hd
    refine .bind (.advance hd fun d' hd' => .bind ?_)
    refine (hss st halong.mem).reads hd' (hfront left) fun e he d'' hd'' => ?_
    have hsame : Stage.eraseSpans ⟨st.optional, e⟩ = st.eraseSpans := by
      rw [Stage.eraseSpans, he, Stage.eraseSpans]
    refine .pure ⟨⟨left, halong.next hsame, hd''⟩, ?_⟩
    exact hd.length_lt hd'' (by simp only [List.length_cons, List.length_append]; omega)
  rw [List.append_assoc] at hc
  refine .bind (.any fun start => .bind (hhead.reads hc hstart fun e he d hd => ?_))
  refine .bind (.mono (Q := fun stages d => stages.map Stage.eraseSpans = ss.map Stage.eraseSpans ∧
    d.Sees more) (.loop (I := fun stages d => ∃ left, Along Stage.eraseSpans ss stages left ∧
      d.Sees (rest left)) ⟨ss, .start, hd⟩ ?_) ?_)
  · rintro stages d ⟨left, halong, hd⟩
    refine .bind (.peekKind hd ?_)
    rcases left with _ | ⟨⟨_ | _, body⟩, left⟩
    · split
      · exact absurd ‹_› hclosing.ne_pipe
      · exact absurd ‹_› hclosing.ne_pipeQuestion
      · exact .pure ⟨halong.done, hd⟩
    · exact hstage _ left stages d halong hd
    · exact hstage _ left stages d halong hd
  · rintro stages d ⟨hstages, hd⟩
    have hnil : stages ≠ [] := by
      rintro rfl
      exact hne (List.map_eq_nil_iff.1 hstages.symm)
    rw [if_neg (by simpa using hnil)]
    refine .bind (.any fun span' => .pure ⟨?_, hd⟩)
    rw [eraseSpans, eraseSpans, eraseStages_eq_map, eraseStages_eq_map, he, hstages]

theorem restores_declaration {d : Declaration Expr}
    (hinit : expression.Restores eraseSpans (· = .symbol .comma) (d.init.itemTokens s) d.init) :
    (declaration expression).Restores Declaration.eraseSpans (fun _ => True) (d.tokens s) d := by
  intro c more hc _
  have htokens : d.tokens s ++ more = .identifier d.name.text :: .symbol .equal ::
      (d.init.itemTokens s ++ .symbol .comma :: more) := by
    simp [Declaration.tokens]
  rw [htokens] at hc
  refine .bind (.expectIdentifier hc fun span c' hc' => .bind (.expect hc' fun c'' hc'' => ?_))
  refine .bind (hinit.reads hc'' rfl fun e he c₃ hc₃ => .bind (.expect hc₃ fun c₄ hc₄ => ?_))
  refine .pure ⟨?_, hc₄⟩
  rw [Declaration.eraseSpans, Declaration.eraseSpans, he, Name.eraseSpan, Name.eraseSpan]

theorem restores_names (ps : List Name) :
    (delimited .rightParen expectIdentifier).Restores (List.map Name.eraseSpan) (fun _ => True)
      (TokenKind.listed false (ps.map fun p => [.identifier p.text]) ++ [.symbol .rightParen])
      ps := by
  refine restores_delimited (by decide) false (fun p _ => ?_) fun p _ more he => ?_
  · exact fun c more hc _ => .expectIdentifier hc fun span d hd => ⟨rfl, hd⟩
  · cases he

/-- The names of a lambda are recognised before they are read. -/
theorem isParameters_names (ps : List Name) (more : List TokenKind) :
    isParameters (TokenKind.listed false (ps.map fun p => [.identifier p.text]) ++
      .symbol .rightParen :: .symbol .arrow :: more) = true := by
  cases ps with
  | nil => rfl
  | cons p ps =>
    have hnames : ∀ (p : Name) (ps : List Name), namesParameters (TokenKind.listed false
        ((p :: ps).map fun p => [.identifier p.text]) ++
        .symbol .rightParen :: .symbol .arrow :: more) = true := by
      intro p ps
      induction ps generalizing p with
      | nil => rfl
      | cons q ps ih => exact ih q
    rw [isParameters, hnames p ps, Bool.or_true]

theorem restores_parameters (s : Style) (ps : List Name) :
    parameters.Restores (List.map Name.eraseSpan) (fun _ => True) (s.parameters ps) ps := by
  intro c more hc _
  rcases s.parameters_eq ps with ⟨p, rfl, hps⟩ | hps <;> rw [hps] at hc
  · have hparen : front ([.identifier p.text] ++ more) ≠ .symbol .leftParen :=
      fun h => TokenKind.noConfusion h
    refine .bind (.eat_false hc hparen (.bind ?_))
    exact .expectIdentifier hc fun span d hd => .pure ⟨rfl, hd⟩
  · exact .bind (.eat_true hc fun d hd =>
      (restores_names ps).reads hd trivial fun names hnames d' hd' => ⟨hnames, hd'⟩)

theorem restores_lambdaFrom {ps : List Name} {body : Expr} {follow : TokenKind → Prop} (span : Span)
    (hbody : expression.Restores eraseSpans follow (body.itemTokens s) body) :
    (lambdaFrom expression).Restores eraseSpans follow
      (s.parameters ps ++ .symbol .arrow :: body.itemTokens s) (.lambda span ps body) := by
  intro c more hc hmore
  rw [List.append_assoc] at hc
  refine .bind (.any fun start => .bind ?_)
  refine (restores_parameters s ps).reads hc trivial fun names hnames d hd => ?_
  refine .bind (.expect hd fun d' hd' => .bind ?_)
  refine hbody.reads hd' hmore fun e he d'' hd'' => .bind (.any fun span' => .pure ⟨?_, hd''⟩)
  rw [eraseSpans, eraseSpans, he, hnames]

/-- The tokens do not begin like a declaration. -/
def NoDeclaration (ks : List TokenKind) : Prop :=
  ∀ name ks', ks = .identifier name :: ks' → front ks' ≠ .symbol .equal

theorem restores_letFrom {ds : List (Declaration Expr)} {body : Expr} {follow : TokenKind → Prop}
    (span : Span) (hne : ds ≠ [])
    (hds : ∀ d ∈ ds,
      expression.Restores eraseSpans (· = .symbol .comma) (d.init.itemTokens s) d.init)
    (hstops : ∀ more, follow (front more) → NoDeclaration (body.itemTokens s ++ more))
    (hbody : expression.Restores eraseSpans follow (body.itemTokens s) body) :
    (letFrom expression).Restores eraseSpans follow
      (.keyword .let_ :: ds.flatMap (·.tokens s) ++ body.itemTokens s) (.letIn span ds body) := by
  intro c more hc hmore
  let rest : List (Declaration Expr) → List TokenKind := fun left =>
    left.flatMap (·.tokens s) ++ (body.itemTokens s ++ more)
  have hrest : ∀ d left, rest (d :: left) = d.tokens s ++ rest left := by
    intro d left
    simp [rest]
  rw [List.append_assoc, List.cons_append] at hc
  refine .bind (.any fun start => .bind (.advance hc fun c' hc' => .bind ?_))
  refine .mono (Q := fun items d => items.map Declaration.eraseSpans =
    ds.map Declaration.eraseSpans ∧ d.Sees (rest [])) (.loop (I := fun items d => ∃ x left,
      Along Declaration.eraseSpans ds items (x :: left) ∧ d.Sees (rest (x :: left))) ?_ ?_) ?_
  · obtain ⟨x, left, rfl⟩ := List.exists_cons_of_ne_nil hne
    exact ⟨x, left, .start, hc'⟩
  · rintro items d ⟨x, left, halong, hd⟩
    rw [hrest] at hd
    refine .bind ((restores_declaration (hds x halong.mem)).reads hd trivial fun y hy d' hd' => ?_)
    have hnext := halong.next hy
    refine .bind (.peekKind hd' ?_)
    cases left with
    | cons x' left =>
      have hgoes : ∃ ks, rest (x' :: left) = .identifier x'.name.text :: .symbol .equal :: ks :=
        ⟨_, rfl⟩
      obtain ⟨ks, hks⟩ := hgoes
      rw [hks]
      refine .bind (.ahead (hks ▸ hd') (.pure ⟨⟨x', left, hnext, hd'⟩, ?_⟩))
      refine hd.length_lt hd' ?_
      simp only [Declaration.tokens, List.length_cons, List.length_append]
      omega
    | nil =>
      have hdone : Progress.Either (fun items => (∃ x left,
          Along Declaration.eraseSpans ds items (x :: left) ∧ d'.Sees (rest (x :: left))) ∧
            d'.rest.length < d.rest.length) (fun items => items.map Declaration.eraseSpans =
          ds.map Declaration.eraseSpans ∧ d'.Sees (rest [])) (.done (items ++ [y])) :=
        ⟨hnext.done, hd'⟩
      split
      · rename_i name hname
        obtain ⟨ks, hks⟩ := TokenKind.exists_cons_of_front hname TokenKind.noConfusion
        have hahead : startsWith (.symbol .equal) ks = false :=
          startsWith_eq_false (hstops more hmore name ks hks)
        refine .bind (.ahead (hks ▸ hd') ?_)
        rw [hahead]
        exact .pure hdone
      · exact .pure hdone
  · rintro items d ⟨hitems, hd⟩
    refine .bind (hbody.reads hd hmore fun e he d' hd' => .bind (.any fun span' => .pure ⟨?_, hd'⟩))
    rw [eraseSpans, eraseSpans, eraseDeclarations_eq_map, eraseDeclarations_eq_map, he, hitems]

end Expr

end ExprLang
