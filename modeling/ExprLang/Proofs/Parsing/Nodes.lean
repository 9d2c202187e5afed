import ExprLang.Proofs.Parsing.Lists

/-!
Nodes. A tree is read from its tokens, one rule for each kind of node, if its parts are read from
theirs.
-/
namespace ExprLang

open Parse
open TokenKind (front)

namespace Expr

variable {s : Style} {m : Nat}

/-- What does not go on with an operand that may have a power after it. -/
def endsPower (k : TokenKind) : Prop := k.extendsOperand = false ∧ k ≠ .symbol .caret

/-- A part of a tree is read, as an operand and as an item, within so many further levels. As an
operand it stands before an access, beside an operator, behind a prefix operator or a power, or
between `then` and `else`. -/
structure ReadsPart (s : Style) (m : Nat) (t : Expr) : Prop where
  opens : Opens (t.operandTokens s)
  base : (primary (parser m)).Restores eraseSpans (· ≠ .symbol .arrow) (t.operandTokens s) t
  operand : (prefixed (parser m) (operandParser m)).Restores eraseSpans endsPower
    (t.operandTokens s) t
  nested : Restores eraseSpans endsPower (operandParser m) (t.operandTokens s) t
  expression : Restores eraseSpans (·.closes = true) (parser m) (t.operandTokens s) t
  starts : ∀ more, Starts (t.itemTokens s ++ more) more
  item : Restores eraseSpans (·.endsItem = true) (parser m) (t.itemTokens s) t

/-- A tree is read from its own tokens, within one level more than its parts. -/
def ReadsWhole (s : Style) (m : Nat) (t : Expr) : Prop :=
  Restores eraseSpans (·.endsItem = true) (parser (m + 1)) (t.tokens s) t

theorem ofToken?_of_begins {k : TokenKind} (h : k.begins = true) : UnaryOp.ofToken? k = none := by
  unfold TokenKind.begins at h
  split at h
  all_goals first
    | rfl
    | cases h

theorem ne_arrow_of_closes {k : TokenKind} (h : k.closes = true) : k ≠ .symbol .arrow := by
  rintro rfl
  cases h

/-- Parentheses cost a level, and nothing in them is taken for parameters. -/
theorem restores_parenthesized (hs : s.Safe) {t : Expr} (ht : t.Expressible)
    (h : ReadsWhole s m t) :
    (primary (parser (m + 1))).Restores eraseSpans (· ≠ .symbol .arrow)
      (.symbol .leftParen :: t.tokens s ++ [.symbol .rightParen]) t := by
  intro c more hc hmore
  rw [List.append_assoc, List.cons_append] at hc
  refine .bind (.peek hc fun span => .bind (.ahead hc ?_))
  have hparameters : isParameters (t.tokens s ++ ([.symbol .rightParen] ++ more)) = false :=
    ht.isParameters_tokens hs hmore
  rw [hparameters]
  refine .bind (.advance hc fun d hd => .bind (h.reads hd rfl fun e he d' hd' => ?_))
  exact .bind (.expect hd' fun d'' hd'' => .pure ⟨he, hd''⟩)

/-- A part is read if its tree is, in parentheses or without. -/
theorem readsPart (hs : s.Safe) {t : Expr} (ht : t.Expressible)
    (hplain : t.isPlain = true → ∀ k, m ≤ k + 1 →
      (primary (parser k)).Restores eraseSpans (· ≠ .symbol .arrow) (t.tokens s) t)
    (hwhole : ∀ k, m ≤ k + 2 → ReadsWhole s k t) (hm : 2 ≤ m) : ReadsPart s m t := by
  obtain ⟨n, rfl⟩ : ∃ n, m = n + 2 := ⟨m - 2, by omega⟩
  have hopens : Opens (t.operandTokens s) := hs.opens t
  have hfront : ∀ more, UnaryOp.ofToken? (front (t.operandTokens s ++ more)) = none :=
    fun more => ofToken?_of_begins (hopens.begins more)
  have hbase : ∀ k, n ≤ k → (primary (parser (k + 1))).Restores eraseSpans (· ≠ .symbol .arrow)
      (t.operandTokens s) t := by
    intro k hk
    unfold operandTokens Style.operand TokenKind.parenthesized
    split
    · exact restores_parenthesized hs ht (hwhole k (by omega))
    · rename_i hwraps
      refine hplain ?_ _ (by omega)
      by_contra hcompound
      exact hwraps (hs t (Bool.eq_false_iff.2 hcompound))
  have hoperand : ∀ k, n ≤ k → ∀ nested : Parse Expr,
      (prefixed (parser (k + 1)) nested).Restores eraseSpans endsPower (t.operandTokens s) t := by
    intro k hk nested
    refine restores_prefixed (fun k hk => hk.2) hfront (restores_postfixed (fun k hk => hk.1) ?_)
    refine (hbase k hk).mono ?_
    rintro _ hends rfl
    cases hends.1
  have hitem : Restores eraseSpans (·.endsItem = true) (parser (n + 2)) (t.itemTokens s) t := by
    unfold itemTokens Style.item TokenKind.parenthesized
    split
    · refine restores_of_primary (fun _ => TokenKind.closes_of_endsItem) (fun _ => rfl) ?_
      exact (restores_parenthesized hs ht (hwhole n (Nat.le_refl _))).mono fun k hk =>
        ne_arrow_of_closes (TokenKind.closes_of_endsItem hk)
    · exact hwhole (n + 1) (by omega)
  exact {
    opens := hopens
    base := hbase (n + 1) (Nat.le_succ n)
    operand := hoperand (n + 1) (Nat.le_succ n) _
    nested := hoperand n (Nat.le_refl n) _
    expression := restores_of_primary (fun _ hk => hk) hfront
      ((hbase n (Nat.le_refl n)).mono fun _ => ne_arrow_of_closes)
    starts := ht.starts_item hs
    item := hitem }

section Nodes

variable {span : Span} {left right : Expr}

theorem endsPower_of_endsItem {k : TokenKind} (h : k.endsItem = true) : endsPower k :=
  have hclosing := TokenKind.closing (TokenKind.closes_of_endsItem h)
  ⟨hclosing.not_extends, hclosing.ne_caret⟩

theorem readsWhole_of_prefixed {t : Expr}
    (h : (prefixed (parser m) (operandParser m)).Restores eraseSpans (·.endsItem = true)
      (t.tokens s) t) : ReadsWhole s m t :=
  restores_of_operand (fun _ => TokenKind.closes_of_endsItem) h

theorem readsWhole_unary (op : UnaryOp) {argument : Expr} (h : ReadsPart s m argument) :
    ReadsWhole s m (.unary span op argument) := by
  refine readsWhole_of_prefixed fun c more hc hmore => ?_
  refine .bind (.any fun start => .bind (.peekKind hc ?_))
  rw [show front ((Expr.unary span op argument).tokens s ++ more) = op.token from rfl,
    op.ofToken?_token]
  refine .bind (.advance hc fun d hd => .bind ?_)
  refine h.nested.reads hd (endsPower_of_endsItem hmore) fun e he d' hd' => ?_
  refine .bind (.any fun span' => .pure ⟨?_, hd'⟩)
  rw [eraseSpans, eraseSpans, he]

theorem readsWhole_power (hleft : ReadsPart s m left) (hright : ReadsPart s m right) :
    ReadsWhole s m (.binary span .pow left right) := by
  refine readsWhole_of_prefixed fun c more hc hmore => ?_
  have hbase : (postfixed (parser m)).Restores eraseSpans (· = .symbol .caret) (left.operandTokens s)
      left := by
    refine restores_postfixed ?_ (hleft.base.mono ?_)
    · rintro _ rfl
      rfl
    · rintro _ rfl
      decide
  have htokens : (Expr.binary span .pow left right).tokens s ++ more =
      left.operandTokens s ++ .symbol .caret :: (right.operandTokens s ++ more) :=
    List.append_assoc ..
  rw [htokens] at hc
  refine .bind (.any fun start => .bind (.peekKind hc ?_))
  rw [ofToken?_of_begins (hleft.opens.begins _)]
  refine .bind (hbase.reads hc rfl fun e he d hd => .bind (.eat_true hd fun d' hd' => .bind ?_))
  refine hright.nested.reads hd' (endsPower_of_endsItem hmore) fun e' he' d'' hd'' => ?_
  refine .bind (.any fun span' => .pure ⟨?_, hd''⟩)
  rw [eraseSpans, eraseSpans, he, he']

theorem readsWhole_infix (op : InfixOp) (hop : op ≠ .binary .pow) (hleft : ReadsPart s m left)
    (hright : ReadsPart s m right) : ReadsWhole s m (op.node span left right) := by
  have htokens : (op.node span left right).tokens s =
      left.operandTokens s ++ op.token :: right.operandTokens s := by
    cases op <;> rfl
  have hends : endsPower op.token :=
    ⟨(Joint.op op).extendsOperand_token, Joint.token_ne_caret (j := .op op) fun he =>
      hop (Joint.op.inj he)⟩
  have hlevel : 0 < op.level := by rcases op with _ | ⟨⟨⟩⟩ | ⟨⟨⟩⟩ <;> decide
  have hinfixes : (infixes (prefixed (parser m) (operandParser m)) InfixOp.tightest).Restores
      eraseSpans (·.endsItem = true) (left.operandTokens s ++ op.token :: right.operandTokens s)
      (op.node span left right) :=
    restores_infixes_node hop (by omega) (Nat.le_refl _) span
      (fun k hk => (TokenKind.closing (TokenKind.closes_of_endsItem hk)).ofToken?_eq)
      (hleft.operand.mono fun k hk => hk ▸ hends)
      (hright.operand.mono fun k hk => endsPower_of_endsItem hk)
  unfold ReadsWhole
  rw [htokens]
  refine restores_pipeline (fun k hk => ?_) hinfixes
  have hclosing := TokenKind.closing (TokenKind.closes_of_endsItem hk)
  exact ⟨hclosing.ne_pipe, hclosing.ne_pipeQuestion⟩

theorem readsWhole_pipe {head : Expr} {ss : List (Stage Expr)} (hne : ss ≠ [])
    (hhead : ReadsPart s m head) (hss : ∀ st ∈ ss, ReadsPart s m st.body) :
    ReadsWhole s m (.pipe span head ss) := by
  have hpipes : ∀ k, pipes k → endsPower k ∧ InfixOp.ofToken? k = none := by
    rintro k (rfl | rfl) <;> exact ⟨⟨rfl, by decide⟩, rfl⟩
  have hcloses : ∀ k : TokenKind, k.endsItem = true → endsPower k ∧ InfixOp.ofToken? k = none :=
    fun k hk => ⟨endsPower_of_endsItem hk,
      (TokenKind.closing (TokenKind.closes_of_endsItem hk)).ofToken?_eq⟩
  have hinfixes : ∀ {t : Expr} {follow : TokenKind → Prop}, ReadsPart s m t →
      (∀ k, follow k → endsPower k ∧ InfixOp.ofToken? k = none) →
      (infixes (prefixed (parser m) (operandParser m)) InfixOp.tightest).Restores eraseSpans follow
        (t.operandTokens s) t := by
    intro t follow ht hfollow
    refine restores_infixes (Nat.le_refl _) (fun k hk level _ => ?_)
      (ht.operand.mono fun k hk => (hfollow k hk).1)
    rw [InfixOp.atLevel, (hfollow k hk).2]
    rfl
  unfold ReadsWhole
  rw [tokens, stagesTokens_eq_flatMap]
  exact restores_stages span hne (fun _ => TokenKind.closes_of_endsItem) (hinfixes hhead hpipes)
    fun st hst => hinfixes (hss st hst) fun k hk => hk.elim (hcloses k) (hpipes k)

/-- A tree that is read from its first token on, without operators outside its parts. -/
theorem readsWhole_of_primary {t : Expr}
    (hfront : ∀ more, UnaryOp.ofToken? (front (t.tokens s ++ more)) = none)
    (h : (primary (parser m)).Restores eraseSpans (·.endsItem = true) (t.tokens s) t) :
    ReadsWhole s m t :=
  restores_of_primary (fun _ => TokenKind.closes_of_endsItem) hfront h

theorem readsWhole_conditional {test consequent : Expr} {alternate : Option Expr}
    (htest : ReadsPart s m test) (hconsequent : ReadsPart s m consequent)
    (halternate : ∀ e, alternate = some e → ReadsPart s m e) :
    ReadsWhole s m (.conditional span test consequent alternate) := by
  refine readsWhole_of_primary (fun more => rfl) fun c more hc hmore => ?_
  have htokens : (Expr.conditional span test consequent alternate).tokens s ++ more =
      .keyword .if_ :: (test.itemTokens s ++ .keyword .then_ :: (consequent.operandTokens s ++
        (alternateTokens s alternate ++ more))) := by
    simp [tokens, operandTokens, itemTokens]
  rw [htokens] at hc
  refine .bind (.peek hc fun span' => .bind (.any fun start => .bind (.advance hc fun d hd => ?_)))
  refine .bind (htest.item.reads hd rfl fun e he d' hd' => ?_)
  refine .bind (.expect hd' fun d₂ hd₂ => ?_)
  cases alternate with
  | none =>
    have hcloses : (front more).closes = true := TokenKind.closes_of_endsItem hmore
    refine .bind (hconsequent.expression.reads hd₂ hcloses fun e' he' d₃ hd₃ => .bind ?_)
    refine .eat_false hd₃ ?_ (.bind (.any fun span'' => .pure ⟨?_, hd₃⟩))
    · intro he
      have helse : front more = .keyword .else_ := he
      rw [helse] at hmore
      cases hmore
    · rw [eraseSpans, eraseSpans, he, he']
  | some e₀ =>
    refine .bind (hconsequent.expression.reads hd₂ rfl fun e' he' d₃ hd₃ => .bind ?_)
    refine .eat_true hd₃ fun d₄ hd₄ => .bind ?_
    refine (halternate e₀ rfl).item.reads hd₄ hmore fun e'' he'' d₅ hd₅ => ?_
    refine .bind (.any fun span'' => .pure ⟨?_, hd₅⟩)
    rw [eraseSpans, eraseSpans, he, he', eraseOption, eraseOption, he'']

theorem restores_object {ps : List (Property Expr)} (hkeys : ∀ p ∈ ps, p.key.Expressible)
    (hvalues : ∀ p ∈ ps, ReadsPart s m p.value) (follow : TokenKind → Prop) :
    (primary (parser m)).Restores eraseSpans follow ((Expr.object span ps).tokens s)
      (.object span ps) := by
  intro c more hc _
  have hitem : ∀ p ∈ ps, (property (parser m)).Restores Property.eraseSpans
      (fun k => k = .symbol .comma ∨ k = .symbol .rightBrace) (p.tokens s) p := fun p hp =>
    restores_property (hkeys p hp) ((hvalues p hp).item.mono fun k hk => by
      rcases hk with rfl | rfl <;> rfl)
  have hitems : (delimited .rightBrace (property (parser m))).Restores
      (List.map Property.eraseSpans) (fun _ => True)
      (TokenKind.listed s.trailing (ps.map (·.tokens s)) ++ [.symbol .rightBrace]) ps :=
    restores_delimited (by decide) s.trailing hitem fun p hp more =>
      (hkeys p hp).token_ne_symbol _
  rw [tokens, propertiesTokens_eq_map] at hc
  refine .bind (.peek hc fun span' => .bind (.advance hc fun d hd => .bind ?_))
  refine hitems.reads hd trivial fun items hsame d' hd' => .bind (.any fun start => .pure ⟨?_, hd'⟩)
  rw [eraseSpans, eraseSpans, eraseProperties_eq_map, eraseProperties_eq_map, hsame]

theorem restores_array {es : List (Option Expr)} (hes : ∀ e, some e ∈ es → ReadsPart s m e)
    (follow : TokenKind → Prop) :
    (primary (parser m)).Restores eraseSpans follow ((Expr.array span es).tokens s)
      (.array span es) := by
  intro c more hc _
  have hitems : (elements (parser m)).Restores (List.map (Option.map eraseSpans)) (fun _ => True)
      (elementsTokens s es ++ [.symbol .rightBracket]) es :=
    restores_elements fun e he => by
      refine ⟨fun more hmem => ?_, (hes e he).item.mono fun k hk => by rw [hk]; rfl⟩
      have hstarts := ((hes e he).starts more).starts
      simp only [List.mem_cons, List.not_mem_nil, or_false] at hmem
      rcases hmem with hmem | hmem <;> rw [hmem] at hstarts <;> cases hstarts
  refine .bind (.peek hc fun span' => .bind (.advance hc fun d hd => .bind ?_))
  refine hitems.reads hd trivial fun items hsame d' hd' => .bind (.any fun start => .pure ⟨?_, hd'⟩)
  rw [eraseSpans, eraseSpans, eraseElements_eq_map, eraseElements_eq_map, hsame]

/-- An operand with one access or call after it. -/
theorem readsWhole_access (suffix : List TokenKind) {t target : Expr}
    (hsuffix : 0 < suffix.length) (htokens : t.tokens s = target.operandTokens s ++ suffix)
    (htarget : ReadsPart s m target)
    (harrow : ∀ more, front (suffix ++ more) ≠ .symbol .arrow)
    (hstep : ∀ start e c more, e.eraseSpans = target.eraseSpans → c.Sees (suffix ++ more) →
      (access (parser m) start e).Reads (fun r c' =>
        r.Either (fun e' => e'.eraseSpans = t.eraseSpans ∧ c'.Sees more) fun _ => False) c) :
    ReadsWhole s m t := by
  have hpostfixed : (postfixed (parser m)).Restores eraseSpans (·.endsItem = true) (t.tokens s)
      t := by
    intro c more hc hmore
    rw [htokens, List.append_assoc] at hc
    refine .bind (.any fun start => .bind ?_)
    refine htarget.base.reads hc (harrow more) fun e he d hd => ?_
    refine .loop_once (I := fun e' d' => e'.eraseSpans = t.eraseSpans ∧ d'.Sees more)
      ((hstep start e d more he hd).mono fun r d' hr => ?_) fun e' d' hd' => ?_
    · cases r with
      | more e' => exact ⟨hr, hd.length_lt hr.2 (by rw [List.length_append]; omega)⟩
      | done e' => exact hr.elim
    · exact reads_access_done hd'.2 (endsPower_of_endsItem hmore).1 hd'
  refine readsWhole_of_prefixed (restores_prefixed (fun k hk => (endsPower_of_endsItem hk).2) ?_
    hpostfixed)
  intro more
  rw [htokens, List.append_assoc]
  exact ofToken?_of_begins (htarget.opens.begins _)

theorem readsWhole_member {target : Expr} {name : String} {extended : Bool} {span' : Span}
    (htarget : ReadsPart s m target) :
    ReadsWhole s m (.member span target (.identifier span' name) false extended) := by
  refine readsWhole_access [.symbol (if extended then .colonColon else .dot), .ofName name]
    (Nat.zero_lt_succ _) rfl htarget (fun more => ?_) fun start e c more he hc => ?_
  · cases extended <;> exact fun h => by cases h
  · refine .bind (.peekKind hc ?_)
    cases extended
    all_goals
      refine .bind (.advance hc fun d hd => .bind (reads_propertyName hd fun span'' d' hd' => ?_))
      refine .bind (.any fun span₃ => .pure ⟨?_, hd'⟩)
      rw [eraseSpans, eraseSpans, he, eraseSpans, eraseSpans]

theorem readsWhole_lookup {target key : Expr} (htarget : ReadsPart s m target)
    (hkey : ReadsPart s m key) : ReadsWhole s m (.member span target key true false) := by
  refine readsWhole_access
    (.symbol .leftBracket :: (key.itemTokens s ++ [.symbol .rightBracket]))
    (Nat.zero_lt_succ _) rfl htarget
    (fun more h => by cases h) fun start e c more he hc => ?_
  rw [List.cons_append, List.append_assoc] at hc
  refine .bind (.peekKind hc (.bind (.advance hc fun d hd => .bind ?_)))
  refine hkey.item.reads hd rfl fun e' he' d' hd' => .bind (.expect hd' fun d₂ hd₂ => ?_)
  refine .bind (.any fun span' => .pure ⟨?_, hd₂⟩)
  rw [eraseSpans, eraseSpans, he, he']

theorem readsWhole_call {callee : Expr} {as : List (Argument Expr)} (hcallee : ReadsPart s m callee)
    (has : ∀ e, .value e ∈ as → ReadsPart s m e) : ReadsWhole s m (.call span callee as) := by
  refine readsWhole_access (.symbol .leftParen :: (TokenKind.listed s.trailing
    (as.map (argumentTokens s)) ++ [.symbol .rightParen])) (Nat.zero_lt_succ _) ?_ hcallee
    (fun more h => by cases h) fun start e c more he hc => ?_
  · rw [tokens, argumentsTokens_eq_map]
    rfl
  have hitem : ∀ a ∈ as, (argument (parser m)).Restores Argument.eraseSpans
      (fun k => k = .symbol .comma ∨ k = .symbol .rightParen) (argumentTokens s a) a := by
    refine fun a ha => restores_argument fun e hvalue => ?_
    have he := has e (hvalue ▸ ha)
    exact ⟨fun more => (he.starts more).front_ne rfl,
      he.item.mono fun k hk => by rcases hk with rfl | rfl <;> rfl⟩
  have hfront : ∀ a ∈ as, ∀ more, front (argumentTokens s a ++ more) ≠ .symbol .rightParen := by
    intro a ha more
    cases a with
    | placeholder span' => exact fun h => by cases h
    | value e => exact ((has e ha).starts more).front_ne rfl
  have hitems : (delimited .rightParen (argument (parser m))).Restores
      (List.map Argument.eraseSpans) (fun _ => True)
      (TokenKind.listed s.trailing (as.map (argumentTokens s)) ++ [.symbol .rightParen]) as :=
    restores_delimited (by decide) s.trailing hitem hfront
  refine .bind (.peekKind hc (.bind (.advance hc fun d hd => .bind ?_)))
  refine hitems.reads hd trivial fun items hsame d' hd' => ?_
  refine .bind (.any fun span' => .pure ⟨?_, hd'⟩)
  rw [eraseSpans, eraseSpans, eraseArguments_eq_map, eraseArguments_eq_map, he, hsame]

theorem readsWhole_lambda {ps : List Name} {body : Expr} (hbody : ReadsPart s m body) :
    ReadsWhole s m (.lambda span ps body) := by
  have hlambda : (lambdaFrom (parser m)).Restores eraseSpans (·.endsItem = true)
      (s.parameters ps ++ .symbol .arrow :: body.itemTokens s) (.lambda span ps body) :=
    restores_lambdaFrom span hbody.item
  have htokens : (Expr.lambda span ps body).tokens s =
      s.parameters ps ++ .symbol .arrow :: body.itemTokens s := rfl
  refine readsWhole_of_primary (fun more => ?_) fun c more hc hmore => ?_
  · rw [htokens]
    rcases s.parameters_eq ps with ⟨p, -, hps⟩ | hps <;> rw [hps] <;> rfl
  · have hread := hlambda c more hc hmore
    rw [htokens, List.append_assoc, List.cons_append] at hc
    rcases s.parameters_eq ps with ⟨p, rfl, hps⟩ | hps <;> rw [hps] at hc
    · exact .bind (.peek hc fun span' => .bind (.ahead hc hread))
    · rw [List.append_assoc, List.cons_append] at hc
      refine .bind (.peek hc fun span' => .bind (.ahead hc ?_))
      rw [List.singleton_append, isParameters_names]
      exact hread

theorem readsWhole_letIn {ds : List (Declaration Expr)} {body : Expr} (hne : ds ≠ [])
    (hds : ∀ d ∈ ds, ReadsPart s m d.init) (hbody : ReadsPart s m body) :
    ReadsWhole s m (.letIn span ds body) := by
  have hlet : (letFrom (parser m)).Restores eraseSpans (·.endsItem = true)
      (.keyword .let_ :: ds.flatMap (·.tokens s) ++ body.itemTokens s) (.letIn span ds body) := by
    refine restores_letFrom span hne
      (fun d hd => (hds d hd).item.mono fun k hk => by rw [hk]; rfl)
      (fun more hmore name ks hks => ?_) hbody.item
    -- After the last declaration there is no equals sign behind a name.
    rcases (hbody.starts more).after_name name ks hks with rfl | hk
    · intro he
      rw [he] at hmore
      cases hmore
    · exact fun he => hk (by rw [he]; decide)
  refine readsWhole_of_primary (fun more => rfl) fun c more hc hmore => ?_
  have hread := hlet c more
  rw [← declarationsTokens_eq_flatMap] at hread
  exact .bind (.peek hc fun span' => hread hc hmore)

end Nodes

end Expr

end ExprLang
