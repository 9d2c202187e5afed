import ExprLang.Expr.Parser
import ExprLang.Proofs.Positions

/-!
Names in parsed trees. A name that a parsed tree binds stands as an identifier in its text, and no
identifier is spelled like the topic; so nothing that a parsed tree binds hides a topic.
-/
namespace ExprLang

variable {α δ : Type}

def TokenKind.NotTopic (k : TokenKind) : Prop := k ≠ .identifier topicName

namespace Lexer

theorem notTopic_wordKind {word : String} (h : word ≠ topicName) : (wordKind word).NotTopic := by
  unfold wordKind TokenKind.NotTopic
  split
  · exact TokenKind.noConfusion
  · exact fun he => h (TokenKind.identifier.inj he)

theorem notTopic_scanToken {p : Position} {c : Char} {cs : List Char} {s : Scanned}
    (h : scanToken p c cs = some s) : s.kind.NotTopic := by
  unfold scanToken at h
  split at h
  · cases h
    exact TokenKind.noConfusion
  split at h
  · cases h
    exact TokenKind.noConfusion
  split at h
  · rename_i hc
    cases h
    refine notTopic_wordKind fun he => ?_
    rw [List.takeWhile_cons_of_pos (isIdentifierPart_of_start hc)] at he
    have hhead := congrArg (·.toList.head?) he
    rw [String.toList_ofList] at hhead
    obtain rfl : c = '%' := Option.some.inj hhead
    revert hc
    decide
  · obtain ⟨s, -, rfl⟩ := Option.map_eq_some_iff.1 h
    exact TokenKind.noConfusion

theorem notTopic_scan (budget : Nat) (p : Position) (cs : List Char) :
    ∀ t ∈ (scan budget p cs).tokens, t.kind.NotTopic := by
  have hend : ∀ q fs, ∀ t ∈ (endAt q fs).tokens, t.kind.NotTopic := fun q fs t ht => by
    rw [List.mem_singleton.1 ht]
    exact TokenKind.noConfusion
  fun_induction scan budget p cs with
  | case1 => exact hend _ _
  | case2 => exact hend _ _
  | case3 => assumption
  | case4 budget p cs t budget' hb c rest hrest s hs stop budget'' more ih =>
    refine List.forall_mem_cons.2 ⟨notTopic_scanToken hs, ?_⟩
    change ∀ t ∈ more.tokens, t.kind.NotTopic
    unfold more
    split
    · exact hend _ _
    · exact ih

end Lexer

/-- The names that are still to be read are not those of topics. -/
def Cursor.TopicFree (c : Cursor) : Prop := ∀ t ∈ c.rest, t.kind.NotTopic

theorem Cursor.topicFree_ofTokens {ts : List Token} (h : ∀ t ∈ ts, t.kind.NotTopic) :
    (Cursor.ofTokens ts).TopicFree := fun t ht => h t ((List.takeWhile_sublist _).subset ht)

namespace Parse

@[simp]
def Progress.value : Progress α → α
  | .more a => a
  | .done a => a

/-- What a parser reads from a text whose names are not those of topics. -/
def Yields (Q : α → Prop) (m : Parse α) : Prop :=
  ∀ c, c.TopicFree → ∀ a c', m c = .ok (a, c') → Q a ∧ c'.TopicFree

namespace Yields

variable {Q : α → Prop} {R : δ → Prop}

theorem pure {a : α} (h : Q a) : Yields Q (Pure.pure a) := by
  rintro c hc _ _ ⟨⟩
  exact ⟨h, hc⟩

theorem bind {m : Parse α} {f : α → Parse δ} (h : Yields Q m) (k : ∀ a, Q a → Yields R (f a)) :
    Yields R (m >>= f) := by
  intro c hc b c' hb
  change (m c >>= fun r => f r.1 r.2) = _ at hb
  rcases hm : m c with _ | ⟨a, d⟩ <;> rw [hm] at hb
  · cases hb
  · obtain ⟨ha, hd⟩ := h c hc a d hm
    exact k a ha d hd b c' hb

theorem fail (p : TokenKind → Problem) : Yields Q (Parse.fail p) := fun _ _ _ _ h => nomatch h

theorem look {f : Cursor → α} (h : ∀ c : Cursor, c.TopicFree → Q (f c)) :
    Yields Q fun c => .ok (f c, c) := by
  rintro c hc _ _ ⟨⟩
  exact ⟨h c hc, hc⟩

theorem peek : Yields (fun t : Token => t.kind.NotTopic) Parse.peek := by
  refine look fun c hc => ?_
  unfold Cursor.token
  cases hr : c.rest with
  | nil => exact TokenKind.noConfusion
  | cons t ts => exact hc t (hr ▸ List.mem_cons_self)

theorem peekKind : Yields TokenKind.NotTopic Parse.peekKind := fun c hc a c' h => by
  cases h
  exact peek c hc _ _ rfl

theorem any {f : Cursor → α} : Yields (fun _ => True) fun c => .ok (f c, c) :=
  look fun _ _ => trivial

theorem advance : Yields (fun _ => True) Parse.advance := by
  rintro c hc _ _ ⟨⟩
  exact ⟨trivial, fun t ht => hc t (List.mem_of_mem_drop ht)⟩

theorem iterate {step : α → Parse (Progress α)}
    (h : ∀ a, Q a → Yields (fun r => Q r.value) (step a)) :
    ∀ (n : Nat) (a : α), Q a → Yields Q (Parse.iterate step n a)
  | 0, _, ha => pure ha
  | n + 1, a, ha => bind (h a ha) fun r hr => by
    cases r with
    | more b => exact iterate h n b hr
    | done b => exact pure hr

theorem loop {step : α → Parse (Progress α)} {a : α} (ha : Q a)
    (h : ∀ a, Q a → Yields (fun r => Q r.value) (step a)) : Yields Q (Parse.loop a step) :=
  fun c => iterate h _ a ha c

theorem eat (kind : TokenKind) : Yields (fun _ => True) (Parse.eat kind) :=
  bind peekKind fun k _ => by
    split
    · exact bind advance fun _ _ => pure trivial
    · exact pure trivial

theorem expect (kind : TokenKind) : Yields (fun _ => True) (Parse.expect kind) :=
  bind peekKind fun k _ => by
    split
    · exact advance
    · exact fail _

theorem expectIdentifier : Yields (fun n : Name => n.text ≠ topicName) Parse.expectIdentifier :=
  bind peek fun t ht => by
    split
    · exact bind advance fun _ _ => pure fun h => ht (congrArg TokenKind.identifier h)
    · exact fail _

theorem expectPropertyName : Yields (fun _ => True) Parse.expectPropertyName :=
  bind peek fun t _ => by
    split
    · exact bind advance fun _ _ => pure trivial
    · exact bind advance fun _ _ => pure trivial
    · exact fail _

end Yields

end Parse

namespace Expr

open Parse

/-- No node of a tree binds a name that would hide a topic. -/
def BindsNoTopic (e : Expr) : Prop := ∀ n, e.HasNode n → topicName ∉ n.binders

theorem BindsNoTopic.node {e : Expr} (h : topicName ∉ e.binders)
    (hc : ∀ c ∈ e.children, c.BindsNoTopic) : e.BindsNoTopic :=
  forall_hasNode h hc

/-- A node that binds nothing itself. -/
theorem BindsNoTopic.of_children {e : Expr} (h : e.binders = [])
    (hc : ∀ c ∈ e.children, c.BindsNoTopic) : e.BindsNoTopic :=
  .node (h ▸ List.not_mem_nil) hc

variable {expression nested operand : Parse Expr}

theorem yields_infixChain (h : Yields BindsNoTopic operand) (level : Nat) :
    Yields BindsNoTopic (infixChain level operand) := by
  refine .bind .any fun start _ => .bind h fun first hfirst => .loop hfirst fun left hleft => ?_
  refine .bind .peekKind fun k _ => ?_
  split
  · exact .pure hleft
  · rename_i op _
    refine .bind .advance fun _ _ => .bind h fun right hright => .bind .any fun span _ => .pure ?_
    have hc : ∀ c ∈ [left, right], c.BindsNoTopic := by simpa using ⟨hleft, hright⟩
    cases op <;> exact BindsNoTopic.of_children rfl hc

theorem yields_infixes (h : Yields BindsNoTopic operand) :
    ∀ n, Yields BindsNoTopic (infixes operand n)
  | 0 => h
  | n + 1 => yields_infixChain (yields_infixes h n) _

theorem yields_pipeline (h : Yields BindsNoTopic operand) :
    Yields BindsNoTopic (pipeline operand) := by
  have hoperand := yields_infixes h InfixOp.tightest
  refine .bind .any fun start _ => .bind hoperand fun head hhead => ?_
  refine .bind (Q := fun ss : List (Stage Expr) => ∀ s ∈ ss, s.body.BindsNoTopic)
    (.loop (List.forall_mem_nil _) fun ss hss => .bind .peekKind fun k _ => ?_) fun ss hss => ?_
  · have hstage : ∀ optional, Yields (fun r => ∀ s ∈ r.value, s.body.BindsNoTopic)
        (do
          let body ← infixes operand InfixOp.tightest
          return Progress.more (ss ++ [Stage.mk optional body])) :=
      fun optional => .bind hoperand fun body hbody => .pure <| by
        simpa only [Progress.value, List.forall_mem_append, List.forall_mem_singleton] using
          ⟨hss, hbody⟩
    split
    · exact .bind .advance fun _ _ => hstage _
    · exact .bind .advance fun _ _ => hstage _
    · exact .pure hss
  · split
    · exact .pure hhead
    · refine .bind .any fun span _ => .pure (BindsNoTopic.of_children rfl ?_)
      exact List.forall_mem_cons.2 ⟨hhead, List.forall_mem_map.2 hss⟩

theorem yields_delimited {α : Type} {Q : α → Prop} {item : Parse α} (close : Symbol)
    (h : Yields Q item) : Yields (fun xs => ∀ x ∈ xs, Q x) (delimited close item) := by
  refine .bind (Q := fun xs => ∀ x ∈ xs, Q x) (.loop (List.forall_mem_nil _) fun xs hxs => ?_)
    fun xs hxs => .bind (.expect _) fun _ _ => .pure hxs
  refine .bind .peekKind fun k _ => ?_
  split
  · exact .pure hxs
  · refine .bind h fun x hx => .bind (.eat _) fun b _ => ?_
    have hall : ∀ y ∈ xs ++ [x], Q y := by
      simpa only [List.forall_mem_append, List.forall_mem_singleton] using ⟨hxs, hx⟩
    cases b <;> exact .pure hall

theorem yields_argument (h : Yields BindsNoTopic expression) :
    Yields (fun a : Argument Expr => ∀ e ∈ a.value?, e.BindsNoTopic) (argument expression) := by
  refine .bind .peek fun t _ => ?_
  split
  · exact .bind .advance fun _ _ => .pure fun e he => nomatch he
  · exact .bind h fun e he => .pure fun _ h => Option.some.inj h ▸ he

theorem yields_property (h : Yields BindsNoTopic expression) :
    Yields (fun p : Property Expr => p.value.BindsNoTopic) (property expression) := by
  refine .bind .peek fun t _ => ?_
  have hrest : ∀ key, Yields (fun p : Property Expr => p.value.BindsNoTopic) (do
      expect (.symbol .colon)
      let value ← expression
      return ⟨key, value, ← spanFrom t.span⟩) := fun key =>
    .bind (.expect _) fun _ _ => .bind h fun value hvalue => .bind .any fun _ _ => .pure hvalue
  dsimp only
  split
  · exact .bind .advance fun _ _ => hrest _
  · exact .bind .advance fun _ _ => hrest _
  · exact .bind .expectPropertyName fun _ _ => hrest _

theorem yields_elements (h : Yields BindsNoTopic expression) :
    Yields (fun es : List (Option Expr) => ∀ e, some e ∈ es → e.BindsNoTopic)
      (elements expression) := by
  refine .bind (Q := fun es : List (Option Expr) => ∀ e, some e ∈ es → e.BindsNoTopic)
    (.loop (fun _ he => nomatch he) fun es hes => ?_)
    fun es hes => .bind (.expect _) fun _ _ => .pure hes
  refine .bind .peekKind fun k _ => ?_
  split
  · exact .pure hes
  · refine .bind (.eat _) fun b _ => ?_
    cases b with
    | true => exact .pure fun e he => hes e (by simpa using he)
    | false =>
      refine .bind h fun x hx => .bind (.eat _) fun b _ => ?_
      have hall : ∀ e, some e ∈ es ++ [some x] → e.BindsNoTopic := fun e he => by
        rcases List.mem_append.1 he with he | he
        · exact hes e he
        · exact Option.some.inj (List.mem_singleton.1 he) ▸ hx
      cases b <;> exact .pure hall

theorem topicName_not_mem_texts {ns : List Name} (h : ∀ n ∈ ns, n.text ≠ topicName) :
    topicName ∉ ns.map (·.text) := fun hmem => by
  obtain ⟨n, hn, he⟩ := List.mem_map.1 hmem
  exact h n hn he

theorem yields_lambdaFrom (h : Yields BindsNoTopic expression) :
    Yields BindsNoTopic (lambdaFrom expression) := by
  refine .bind .any fun start _ => .bind (Q := fun ns => ∀ n ∈ ns, Name.text n ≠ topicName) ?_
    fun ns hns => .bind (.expect _) fun _ _ => .bind h fun body hbody => .bind .any fun span _ =>
      .pure (BindsNoTopic.node (topicName_not_mem_texts hns) (by simpa [children] using hbody))
  refine .bind (.eat _) fun b _ => ?_
  cases b with
  | true => exact yields_delimited _ .expectIdentifier
  | false => exact .bind .expectIdentifier fun n hn => .pure (List.forall_mem_singleton.2 hn)

theorem yields_conditionalFrom (h : Yields BindsNoTopic expression) :
    Yields BindsNoTopic (conditionalFrom expression) := by
  refine .bind .any fun start _ => .bind .advance fun _ _ => .bind h fun test htest => ?_
  refine .bind (.expect _) fun _ _ => .bind h fun consequent hconsequent => ?_
  refine .bind (.eat _) fun b _ => ?_
  cases b with
  | true =>
    refine .bind h fun alternate halternate => .bind .any fun span _ => .pure ?_
    exact BindsNoTopic.of_children rfl (by simp [children, *])
  | false =>
    refine .bind .any fun span _ => .pure ?_
    exact BindsNoTopic.of_children rfl (by simp [children, *])

/-- A declaration of a name that is not a topic's, with a value that binds none. -/
def Declares (d : Declaration Expr) : Prop := d.name.text ≠ topicName ∧ d.init.BindsNoTopic

theorem yields_letFrom (h : Yields BindsNoTopic expression) :
    Yields BindsNoTopic (letFrom expression) := by
  refine .bind .any fun start _ => .bind .advance fun _ _ => ?_
  refine .bind (Q := fun ds => ∀ d ∈ ds, Declares d)
    (.loop (List.forall_mem_nil _) fun ds hds => ?_) fun ds hds =>
      .bind h fun body hbody => .bind .any fun span _ => .pure ?_
  · refine .bind (Q := Declares) ?_ fun d hd => ?_
    · refine .bind .expectIdentifier fun n hn => .bind (.expect _) fun _ _ => ?_
      exact .bind h fun init hinit => .bind (.expect _) fun _ _ => .pure ⟨hn, hinit⟩
    have hall : ∀ e ∈ ds ++ [d], Declares e := by
      simpa only [List.forall_mem_append, List.forall_mem_singleton] using ⟨hds, hd⟩
    refine .bind .peekKind fun k _ => ?_
    split
    · refine .bind .any fun b _ => ?_
      split <;> exact .pure hall
    · exact .pure hall
  · refine BindsNoTopic.node (fun hmem => ?_) fun c hc => ?_
    · obtain ⟨d, hd, he⟩ := List.mem_map.1 hmem
      exact (hds d hd).1 he
    · rcases List.mem_append.1 hc with hc | hc
      · obtain ⟨d, hd, rfl⟩ := List.mem_map.1 hc
        exact (hds d hd).2
      · exact List.mem_singleton.1 hc ▸ hbody

theorem yields_primary (h : Yields BindsNoTopic expression) :
    Yields BindsNoTopic (primary expression) := by
  refine .bind .peek fun t _ => ?_
  have hleaf : ∀ e : Expr, e.children = [] → e.binders = [] →
      Yields BindsNoTopic (do advance; return e) := fun e hc hb =>
    .bind .advance fun _ _ => .pure (BindsNoTopic.of_children hb (by simp [hc]))
  dsimp only
  split
  iterate 5 exact hleaf (.literal _ _) rfl rfl
  · exact hleaf (.topic _) rfl rfl
  · refine .bind .any fun b _ => ?_
    split
    · exact yields_lambdaFrom h
    · exact hleaf (.identifier _ _) rfl rfl
  · refine .bind .any fun b _ => ?_
    split
    · exact yields_lambdaFrom h
    · exact .bind .advance fun _ _ => .bind h fun e he => .bind (.expect _) fun _ _ => .pure he
  · refine .bind .advance fun _ _ => .bind (yields_elements h) fun es hes => ?_
    refine .bind .any fun span _ => .pure (BindsNoTopic.of_children rfl fun c hc => hes c ?_)
    simpa [children] using hc
  · refine .bind .advance fun _ _ => .bind (yields_delimited _ (yields_property h)) fun ps hps => ?_
    exact .bind .any fun span _ => .pure (BindsNoTopic.of_children rfl (List.forall_mem_map.2 hps))
  · exact yields_conditionalFrom h
  · exact yields_letFrom h
  · exact .fail _
  · exact .fail _

theorem yields_postfixed (h : Yields BindsNoTopic expression) :
    Yields BindsNoTopic (postfixed expression) := by
  refine .bind .any fun start _ => .bind (yields_primary h) fun first hfirst => ?_
  refine .loop hfirst fun e he => .bind .peekKind fun k _ => ?_
  have hname : ∀ span name, (Expr.identifier span name).BindsNoTopic := fun _ _ =>
    BindsNoTopic.of_children rfl (List.forall_mem_nil _)
  split
  · refine .bind .advance fun _ _ => .bind .expectPropertyName fun n _ => .bind .any fun _ _ => ?_
    exact .pure (BindsNoTopic.of_children rfl (by simp [children, he, hname]))
  · refine .bind .advance fun _ _ => .bind .expectPropertyName fun n _ => .bind .any fun _ _ => ?_
    exact .pure (BindsNoTopic.of_children rfl (by simp [children, he, hname]))
  · refine .bind .advance fun _ _ => .bind h fun key hkey => .bind (.expect _) fun _ _ => ?_
    exact .bind .any fun _ _ => .pure (BindsNoTopic.of_children rfl (by simp [children, he, hkey]))
  · refine .bind .advance fun _ _ => .bind (yields_delimited _ (yields_argument h)) fun as has => ?_
    refine .bind .any fun _ _ => .pure (BindsNoTopic.of_children rfl ?_)
    refine List.forall_mem_cons.2 ⟨he, fun c hc => ?_⟩
    obtain ⟨a, ha, hv⟩ := List.mem_filterMap.1 hc
    exact has a ha c hv
  · exact .pure he

theorem yields_prefixed (h : Yields BindsNoTopic expression) (hn : Yields BindsNoTopic nested) :
    Yields BindsNoTopic (prefixed expression nested) := by
  refine .bind .any fun start _ => .bind .peekKind fun k _ => ?_
  split
  · refine .bind .advance fun _ _ => .bind hn fun e he => .bind .any fun _ _ => .pure ?_
    exact BindsNoTopic.of_children rfl (by simpa [children] using he)
  · refine .bind (yields_postfixed h) fun base hbase => .bind (.eat _) fun b _ => ?_
    cases b with
    | true =>
      refine .bind hn fun exponent hexponent => .bind .any fun _ _ => .pure ?_
      exact BindsNoTopic.of_children rfl (by simp [children, hbase, hexponent])
    | false => exact .pure hbase

theorem yields_parsers (n : Nat) :
    Yields BindsNoTopic (parser n) ∧ Yields BindsNoTopic (operandParser n) := by
  induction n with
  | zero => exact ⟨.fail _, .fail _⟩
  | succ n ih =>
    have hprefixed := yields_prefixed ih.1 ih.2
    exact ⟨yields_pipeline hprefixed, hprefixed⟩

theorem parser_of_ofTokens {ts : List Token} {e : Expr} {findings : List Finding}
    (h : ofTokens ts = ⟨some e, findings⟩) :
    ∃ c, parser maxNesting (.ofTokens ts) = .ok (e, c) := by
  unfold ofTokens at h
  cases hparser : parser maxNesting (.ofTokens ts) with
  | error f => rw [hparser] at h; exact nomatch congrArg Parsed.tree h
  | ok r =>
    rw [hparser] at h
    cases hdeep : r.1.deeperThan? maxHeight with
    | some node => simp [hdeep] at h
    | none =>
      simp only [hdeep, Parsed.mk.injEq, Option.some.injEq] at h
      exact ⟨r.2, h.1 ▸ rfl⟩

theorem bindsNoTopic_of_parse {text : String} {e : Expr} (h : parse text = .ok e) :
    e.BindsNoTopic := by
  have hlexed : (Cursor.ofTokens (lex text).tokens).TopicFree :=
    Cursor.topicFree_ofTokens (Lexer.notTopic_scan _ _ _)
  simp only [parse] at h
  split at h
  · split at h
    · rename_i hparsed
      cases h
      obtain ⟨c, hc⟩ := parser_of_ofTokens hparsed
      exact ((yields_parsers maxNesting).1 _ hlexed _ _ hc).1
    · cases h
  · cases h

end Expr

end ExprLang
