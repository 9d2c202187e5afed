import ExprLang.Proofs.Parsing.Tracks

/-!
Each production of the walking parser keeps together with that of the parser of trees, and an
induction on the nesting puts them together.
-/
namespace ExprLang

namespace Walker

/-- From so many places further on these kinds lie ahead, and then the input ends. -/
def Sees (w : Walker) (n : Nat) (ks : List TokenKind) : Prop :=
  ∀ i ≤ ks.length, w.lookAhead (n + i) = ks[i]?.getD .endOfInput

variable {w : Walker} {c : Cursor}

namespace Sees

variable {n : Nat} {k : TokenKind} {ks : List TokenKind}

theorem head (h : w.Sees n ks) : w.lookAhead n = ks.head?.getD .endOfInput := by
  rw [List.head?_eq_getElem?]
  exact h 0 (Nat.zero_le _)

theorem tail (h : w.Sees n (k :: ks)) : w.Sees (n + 1) ks := fun i hi => by
  rw [Nat.add_assoc, Nat.add_comm 1 i, h (i + 1) (Nat.succ_le_succ hi), List.getElem?_cons_succ]

/-- The kinds after the first. -/
theorem of_views (h : w.Views c) (hkind : c.token.kind ≠ .endOfInput) :
    w.Sees 1 ((c.rest.drop 1).map (·.kind)) := fun i hi => by
  have hrest := congrArg List.length (Cursor.rest_eq_cons hkind)
  rw [List.length_map] at hi
  rw [List.length_cons] at hrest
  rw [h.lookAhead_eq (by omega), List.getElem?_map, List.getElem?_drop, List.head?_map,
    List.head?_drop]

theorem startsWith (h : w.Sees n ks) (hk : k ≠ .endOfInput) :
    w.lookAhead n = k ↔ Expr.startsWith k ks = true := by
  rw [h.head, Expr.startsWith, decide_eq_true_iff]
  cases ks with
  | nil => simpa using hk.symm
  | cons k' ks => simp

theorem exists_cons (h : w.Sees n ks) (hlook : w.lookAhead n = k) (hk : k ≠ .endOfInput) :
    ∃ ks', ks = k :: ks' := by
  rw [h.head] at hlook
  cases ks with
  | nil => exact absurd hlook.symm hk
  | cons k' ks => exact ⟨ks, congrArg (· :: ks) hlook⟩

theorem closesParameters (h : w.Sees n (.symbol .rightParen :: ks)) :
    decide (w.lookAhead (n + 1) = .symbol .arrow) =
      Expr.closesParameters (.symbol .rightParen :: ks) := by
  rw [h.tail.head]
  cases ks with
  | nil => rfl
  | cons k ks =>
    cases k with
    | symbol s => cases s <;> rfl
    | _ => rfl

theorem closesParameters_eq_false (h : w.Sees n ks)
    (hlook : w.lookAhead n ≠ .symbol .rightParen) : Expr.closesParameters ks = false := by
  unfold Expr.closesParameters
  split
  · exact absurd h.head hlook
  · rfl

theorem namesParameters (h : w.Sees n ks) : w.namesParameters n = Expr.namesParameters ks := by
  fun_induction Walker.namesParameters w n generalizing ks
  case case1 n name hname hcomma hlt ih =>
    obtain ⟨ks, rfl⟩ := h.exists_cons hname TokenKind.noConfusion
    obtain ⟨ks, rfl⟩ := h.tail.exists_cons hcomma TokenKind.noConfusion
    have hrest := ih h.tail.tail
    exact hrest
  case case2 n name hname hclose =>
    obtain ⟨ks, rfl⟩ := h.exists_cons hname TokenKind.noConfusion
    obtain ⟨ks, rfl⟩ := h.tail.exists_cons hclose TokenKind.noConfusion
    exact h.tail.closesParameters
  case case3 n name hname hcomma hclose =>
    obtain ⟨ks, rfl⟩ := h.exists_cons hname TokenKind.noConfusion
    rw [← h.tail.closesParameters_eq_false hclose]
    cases ks with
    | nil => rfl
    | cons k ks =>
      cases k with
      | symbol s =>
        cases s with
        | comma => exact absurd h.tail.head hcomma
        | _ => rfl
      | _ => rfl
  case case4 n hname =>
    cases ks with
    | nil => rfl
    | cons k ks =>
      cases k with
      | identifier name => exact absurd h.head (hname name)
      | _ => rfl

theorem isParameters (h : w.Sees 1 ks) : w.isParameters = Expr.isParameters ks := by
  unfold Walker.isParameters Expr.isParameters
  split
  next hclose =>
    obtain ⟨ks, rfl⟩ := h.exists_cons hclose TokenKind.noConfusion
    rw [h.closesParameters]
    exact (Bool.or_false _).symm
  next hclose => rw [h.namesParameters, h.closesParameters_eq_false hclose, Bool.false_or]

end Sees

end Walker

namespace Walk

variable {α : Type} {depth place : Nat} {w : Walker} {c : Cursor} {expression operand : Walk Expr}
  {expression' operand' : Parse Expr}

namespace Walks

theorem infixChain (h : Walks depth operand operand') (level : Nat) :
    Walks depth (Walk.infixChain level operand) (Expr.infixChain level operand') := by
  refine function fun _ _ _ hs => .bind <| .peekSpan hs <| .bind <| .take h hs fun _ hs => ?_
  refine .loop hs (fun left hs => .bind <| .peekKind hs fun kind hkind => ?_) fun _ hs => hs
  cases hop : InfixOp.atLevel level kind with
  | none => exact .pure hs
  | some op =>
    have hne : kind ≠ .endOfInput := by
      rintro rfl
      cases hop
    exact .bind <| .advance hs hkind hne fun hs => .bind <| .take h hs fun _ hs =>
      .bind <| .spanFrom hs fun _ => .pure (hs.mono (Nat.le_succ _))

theorem infixes (h : Walks depth operand operand') :
    ∀ n, Walks depth (Walk.infixes operand n) (Expr.infixes operand' n)
  | 0 => h
  | n + 1 => infixChain (infixes h n) _

theorem pipeline (h : Walks depth operand operand') :
    Walks depth (Walk.pipeline operand) (Expr.pipeline operand') := by
  have hoperand := infixes h InfixOp.tightest
  refine function fun _ _ _ hs => .bind <| .peekSpan hs <| .bind <| .take hoperand hs
    fun _ hs => .bind <| .loop hs (fun stages hs => .bind <| .peekKind hs fun kind hkind => ?_)
      fun stages hs => .ite Iff.rfl (fun _ => .pure hs) fun _ =>
        .bind <| .spanFrom hs fun _ => .pure hs
  cases kind with
  | symbol s =>
    cases s with
    | pipe | pipeQuestion =>
      exact .bind <| .advance hs hkind TokenKind.noConfusion fun hs =>
        .bind <| .take hoperand hs fun _ hs => .pure (hs.mono (Nat.le_succ _))
    | _ => exact .pure hs
  | _ => exact .pure hs

theorem delimited {close : Symbol} {item : Walk α} {item' : Parse α}
    (h : Walks depth item item') :
    Walks depth (Walk.delimited close item) (Expr.delimited close item') := by
  refine fun _ _ _ hs => .bind <| .loop hs (fun items hs => ?_) fun items hs =>
    .bind <| .take (expect TokenKind.noConfusion) hs fun _ hs => .pure hs
  refine .bind <| .peekKind hs fun _ _ => .ite Iff.rfl (fun _ => .pure hs) fun _ => ?_
  refine .bind <| .take h hs fun _ hs => .bind <| .eat TokenKind.noConfusion hs (fun hs => ?_) ?_
  · exact .pure (hs.mono (Nat.le_succ _))
  · exact .pure (hs.mono (Nat.le_succ _))

theorem argument (h : Walks depth expression expression') :
    Walks depth (Walk.argument expression) (Expr.argument expression') := by
  refine fun place w c hs => .bind <| .peek hs fun kind span hkind _ => ?_
  have hvalue : Tracks (do return Argument.value (← expression))
      (do return Argument.value (← expression')) (fun _ => Stands depth (place + 1)) w c :=
    .bind <| .take h hs fun _ hs => .pure hs
  cases kind with
  | symbol s =>
    cases s with
    | hash => exact .bind <| .advance hs hkind TokenKind.noConfusion fun hs => .pure hs
    | _ => exact hvalue
  | _ => exact hvalue

theorem arguments (h : Walks depth expression expression') :
    Walks depth (Walk.arguments expression)
      (Expr.delimited .rightParen (Expr.argument expression')) :=
  function (delimited (argument h))

theorem property (h : Walks depth expression expression') :
    Walks depth (Walk.property expression) (Expr.property expression') := by
  refine fun place _ _ hs => .bind <| .peek hs fun kind span hkind _ => ?_
  have hrest : ∀ {w c} key, Stands depth (place + 1) w c →
      Tracks
        (do
          Walk.expect (.symbol .colon)
          let value ← expression
          return Property.mk key value (← Walk.spanFrom span))
        (do
          Parse.expect (.symbol .colon)
          let value ← expression'
          return Property.mk key value (← Parse.spanFrom span))
        (fun _ => Stands depth (place + 1)) w c := fun key hs =>
    .bind <| .take (expect TokenKind.noConfusion) hs fun _ hs => .bind <| .take h hs fun _ hs =>
      .bind <| .spanFrom hs fun _ => .pure (hs.mono (by omega))
  cases kind with
  | string s => exact .bind <| .advance hs hkind TokenKind.noConfusion fun hs => hrest _ hs
  | number x => exact .bind <| .advance hs hkind TokenKind.noConfusion fun hs => hrest _ hs
  | _ => exact .bind <| .take expectPropertyName hs fun _ hs => hrest _ hs

theorem elements (h : Walks depth expression expression') :
    Walks depth (Walk.elements expression) (Expr.elements expression') := by
  refine fun _ _ _ hs => .bind <| .loop hs (fun items hs => ?_) fun items hs =>
    .bind <| .take (expect TokenKind.noConfusion) hs fun _ hs => .pure hs
  refine .bind <| .peekKind hs fun _ _ => .ite Iff.rfl (fun _ => .pure hs) fun _ => ?_
  refine .bind <| .eat TokenKind.noConfusion hs (fun hs => .pure hs) ?_
  refine .bind <| .take h hs fun _ hs => .bind <| .eat TokenKind.noConfusion hs (fun hs => ?_) ?_
  · exact .pure (hs.mono (Nat.le_succ _))
  · exact .pure (hs.mono (Nat.le_succ _))

/-- The span begins with the bracket. -/
theorem array (h : Walks depth expression expression') (hs : Stands depth place w c)
    (hkind : c.token.kind = .symbol .leftBracket) :
    Tracks (Walk.array expression)
      (do
        Parse.advance
        let items ← Expr.elements expression'
        return .array (← Parse.spanFrom c.token.span) items)
      (fun _ => Stands depth (place + 1)) w c :=
  .function <| .lookSpan hs <| .bind <| .advance hs hkind TokenKind.noConfusion fun hs =>
    .bind <| .take (elements h) hs fun _ hs =>
      .bind <| .spanFrom hs fun _ => .pure (hs.mono (Nat.le_succ _))

theorem object (h : Walks depth expression expression') (hs : Stands depth place w c)
    (hkind : c.token.kind = .symbol .leftBrace) :
    Tracks (Walk.object expression)
      (do
        Parse.advance
        let properties ← Expr.delimited .rightBrace (Expr.property expression')
        return .object (← Parse.spanFrom c.token.span) properties)
      (fun _ => Stands depth (place + 1)) w c :=
  .function <| .lookSpan hs <| .bind <| .advance hs hkind TokenKind.noConfusion fun hs =>
    .bind <| .take (delimited (property h)) hs fun _ hs =>
      .bind <| .spanFrom hs fun _ => .pure (hs.mono (Nat.le_succ _))

theorem parameters : Walks depth Walk.parameters Expr.parameters := fun _ _ _ hs =>
  .bind <| .eat TokenKind.noConfusion hs
    (fun hs => .take (delimited expectIdentifier) hs fun _ hs => hs.mono (Nat.le_succ _))
    (.bind <| .take expectIdentifier hs fun _ hs => .pure hs)

theorem lambda (h : Walks depth expression expression') :
    Walks depth (Walk.lambda expression) (Expr.lambdaFrom expression') :=
  function fun _ _ _ hs => .bind <| .peekSpan hs <| .bind <| .take parameters hs fun _ hs =>
    .bind <| .take (expect TokenKind.noConfusion) hs fun _ hs => .bind <| .take h hs fun _ hs =>
      .bind <| .spanFrom hs fun _ => .pure (hs.mono (by omega))

theorem conditional (h : Walks depth expression expression') (hs : Stands depth place w c)
    (hkind : c.token.kind = .keyword .if_) :
    Tracks (Walk.conditional expression) (Expr.conditionalFrom expression')
      (fun _ => Stands depth (place + 1)) w c := by
  refine .function <| .bind <| .peekSpan hs <| .bind <|
    .advance hs hkind TokenKind.noConfusion fun hs => .bind <| .take h hs fun _ hs =>
      .bind <| .take (expect TokenKind.noConfusion) hs fun _ hs => .bind <| .take h hs fun _ hs =>
        .bind <| .eat TokenKind.noConfusion hs (fun hs => ?_) ?_
  · exact .bind <| .take h hs fun _ hs => .bind <| .spanFrom hs fun _ => .pure (hs.mono (by omega))
  · exact .bind <| .spanFrom hs fun _ => .pure (hs.mono (by omega))

theorem declaration (h : Walks depth expression expression') :
    Walks depth (Walk.declaration expression) (Expr.declaration expression') := fun _ _ _ hs =>
  .bind <| .take expectIdentifier hs fun _ hs =>
    .bind <| .take (expect TokenKind.noConfusion) hs fun _ hs => .bind <| .take h hs fun _ hs =>
      .bind <| .take (expect TokenKind.noConfusion) hs fun _ hs => .pure (hs.mono (by omega))

theorem letIn (h : Walks depth expression expression') (hs : Stands depth place w c)
    (hkind : c.token.kind = .keyword .let_) :
    Tracks (Walk.letIn expression) (Expr.letFrom expression')
      (fun _ => Stands depth (place + 1)) w c := by
  refine .function <| .bind <| .peekSpan hs <| .bind <|
    .advance hs hkind TokenKind.noConfusion fun hs =>
      .bind <| .loop hs (fun declarations hs => ?_) fun _ hs => .bind <| .take h hs fun _ hs =>
        .bind <| .spanFrom hs fun _ => .pure (hs.mono (Nat.le_succ _))
  refine .bind <| .take (declaration h) hs fun d hs =>
    .bind <| .peekKind hs fun kind hkind => ?_
  cases kind with
  | identifier name =>
    have hsees := Walker.Sees.of_views hs.views (hkind ▸ TokenKind.noConfusion)
    refine .lookAhead <| .ite (hsees.startsWith TokenKind.noConfusion) (fun _ => ?_) fun _ => ?_
    · exact .pure hs
    · exact .pure (hs.mono (Nat.le_succ _))
  | _ => exact .pure (hs.mono (Nat.le_succ _))

theorem primary (h : Walks depth expression expression') :
    Walks depth (Walk.primary expression) (Expr.primary expression') := by
  refine function fun place w c hs => .bind <| .peek hs fun kind span hkind hspan => ?_
  -- A literal, the topic or a name is one token.
  have hleaf : kind ≠ .endOfInput → ∀ e : Expr, Tracks (do Walk.advance; return e)
      (do Parse.advance; return e) (fun _ => Stands depth (place + 1)) w c := fun hne e =>
    .bind <| .advance hs hkind hne fun hs => .pure hs
  cases kind with
  | number x => exact hleaf TokenKind.noConfusion _
  | string s => exact hleaf TokenKind.noConfusion _
  | identifier name =>
    have hsees := Walker.Sees.of_views hs.views (hkind ▸ TokenKind.noConfusion)
    exact .lookAhead <| .ite (hsees.startsWith TokenKind.noConfusion) (fun _ => lambda h _ _ _ hs)
      fun _ => hleaf TokenKind.noConfusion _
  | keyword k =>
    cases k with
    | true | false | null => exact hleaf TokenKind.noConfusion _
    | if_ => exact conditional h hs hkind
    | let_ => exact letIn h hs hkind
    | _ => exact .fail hs
  | symbol s =>
    cases s with
    | percent => exact hleaf TokenKind.noConfusion _
    | leftParen =>
      have hsees := Walker.Sees.of_views hs.views (hkind ▸ TokenKind.noConfusion)
      refine .bind <| .looks (congrArg some hsees.isParameters) <| .ite Iff.rfl
        (fun _ => lambda h _ _ _ hs) fun _ => ?_
      exact .bind <| .advance hs hkind TokenKind.noConfusion fun hs =>
        .bind <| .take h hs fun _ hs => .bind <| .take (expect TokenKind.noConfusion) hs
          fun _ hs => .pure (hs.mono (by omega))
    | leftBracket => exact hspan ▸ array h hs hkind
    | leftBrace => exact hspan ▸ object h hs hkind
    | _ => exact .fail hs
  | endOfInput => exact .fail hs

theorem access (h : Walks depth expression expression') (start : Span) (e : Expr)
    (hs : Stands depth place w c) :
    Tracks (Walk.access expression start e) (Expr.access expression' start e)
      (fun r w' c' => r.Either (fun _ => Stands depth (place + 1) w' c')
        fun _ => Stands depth place w' c') w c := by
  refine .bind <| .peekKind hs fun kind hkind => ?_
  cases kind with
  | symbol s =>
    cases s with
    | dot | colonColon =>
      exact .bind <| .advance hs hkind TokenKind.noConfusion fun hs =>
        .bind <| .take expectPropertyName hs fun _ hs =>
          .bind <| .spanFrom hs fun _ => .pure (hs.mono (Nat.le_succ _))
    | leftBracket =>
      exact .bind <| .advance hs hkind TokenKind.noConfusion fun hs =>
        .bind <| .take h hs fun _ hs => .bind <| .take (expect TokenKind.noConfusion) hs
          fun _ hs => .bind <| .spanFrom hs fun _ => .pure (hs.mono (by omega))
    | leftParen =>
      exact .bind <| .advance hs hkind TokenKind.noConfusion fun hs =>
        .bind <| .take (arguments h) hs fun _ hs =>
          .bind <| .spanFrom hs fun _ => .pure (hs.mono (Nat.le_succ _))
    | _ => exact .pure hs
  | _ => exact .pure hs

theorem postfixed (h : Walks depth expression expression') :
    Walks depth (Walk.postfixed expression) (Expr.postfixed expression') :=
  function fun _ _ _ hs => .bind <| .peekSpan hs <| .bind <| .take (primary h) hs fun _ hs =>
    .loop hs (fun e hs => access h _ e hs) fun _ hs => hs

theorem prefixed (h : Walks depth expression expression') (hn : Walks depth operand operand') :
    Walks depth (Walk.prefixed expression operand) (Expr.prefixed expression' operand') := by
  refine function fun _ _ _ hs => .bind <| .peekSpan hs <| .bind <| .peekKind hs
    fun kind hkind => ?_
  cases hop : UnaryOp.ofToken? kind with
  | some op =>
    have hne : kind ≠ .endOfInput := by
      rintro rfl
      cases hop
    exact .bind <| .advance hs hkind hne fun hs => .bind <| .take hn hs fun _ hs =>
      .bind <| .spanFrom hs fun _ => .pure (hs.mono (Nat.le_succ _))
  | none =>
    -- The walk is in a function of its own here, which looks at the span once more.
    refine .function <| .lookSpan hs <| .bind <| .take (postfixed h) hs fun _ hs =>
      .bind <| .eat TokenKind.noConfusion hs (fun hs => ?_) (.pure hs)
    exact .bind <| .take hn hs fun _ hs =>
      .bind <| .spanFrom hs fun _ => .pure (hs.mono (by omega))

end Walks

/-- With so many levels left the parsers keep together, if the calls are followed further. -/
theorem walks_parsers (n : Nat) {depth calls : Nat} (hdepth : depth + n = maxNesting)
    (hcalls : n < calls) :
    Walks depth (Walk.expression calls) (Expr.parser n) ∧
      Walks depth (Walk.operand calls) (Expr.operandParser n) := by
  induction n generalizing depth calls with
  | zero =>
    obtain ⟨calls, rfl⟩ := Nat.exists_eq_add_one_of_ne_zero (Nat.ne_of_gt hcalls)
    obtain rfl : depth = maxNesting := hdepth
    exact ⟨.refused, .refused⟩
  | succ n ih =>
    obtain ⟨calls, rfl⟩ :=
      Nat.exists_eq_add_one_of_ne_zero (Nat.ne_of_gt (Nat.zero_lt_of_lt hcalls))
    obtain ⟨hexpression, hoperand⟩ :=
      @ih (depth + 1) calls (by omega) (Nat.lt_of_succ_lt_succ hcalls)
    have hprefixed := Walks.prefixed hexpression hoperand
    exact ⟨.nested (by omega) hprefixed.pipeline, .nested (by omega) hprefixed⟩

end Walk

end ExprLang
