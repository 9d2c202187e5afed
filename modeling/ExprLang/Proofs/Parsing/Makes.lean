import ExprLang.Proofs.Coverage
import ExprLang.Proofs.Parsing.Items

/-!
What is parsed is spelled by the tokens that were taken for it: one lemma for each production, and
an induction on the nesting that only puts them together.
-/
namespace ExprLang

variable {α : Type}

theorem InfixOp.token_ne_endOfInput (op : InfixOp) : op.token ≠ .endOfInput := by
  cases op with
  | coalesce => exact TokenKind.noConfusion
  | logical op => cases op <;> exact TokenKind.noConfusion
  | binary op => cases op <;> exact TokenKind.noConfusion

theorem UnaryOp.token_ne_endOfInput (op : UnaryOp) : op.token ≠ .endOfInput := by
  cases op <;> exact TokenKind.noConfusion

theorem UnaryOp.eq_token_of_ofToken? {k : TokenKind} {op : UnaryOp} (h : ofToken? k = some op) :
    k = op.token := by
  unfold ofToken? at h
  split at h <;> cases h <;> rfl

theorem InfixOp.eq_token_of_atLevel {level : Nat} {k : TokenKind} {op : InfixOp}
    (h : atLevel level k = some op) : k = op.token := by
  have h := (Option.filter_eq_some_iff.1 h).1
  unfold ofToken? at h
  split at h <;> cases h <;> rfl

namespace Parse

theorem makes_expectIdentifier : Makes (fun us n => us = [n.sign]) expectIdentifier := by
  intro c
  refine .bind <| .look ?_
  split
  · rename_i name span htoken
    refine .bind <| .advance (congrArg Token.kind htoken) TokenKind.noConfusion (.refl c) .part
      fun e span' hspan he => .pure ⟨_, he, ?_⟩
    rw [← hspan, htoken]
    rfl
  · exact .fail _

theorem makes_expectPropertyName :
    Makes (fun us n => ∃ kind : TokenKind, kind.Names n.text ∧ us = [.part kind n.span])
      expectPropertyName := by
  intro c
  refine .bind <| .look ?_
  split
  · rename_i name span htoken
    refine .bind <| .advance (congrArg Token.kind htoken) TokenKind.noConfusion (.refl c) .part
      fun e span' hspan he => .pure ⟨_, he, _, .identifier name, ?_⟩
    rw [← hspan, htoken]
    rfl
  · rename_i k span htoken
    refine .bind <| .advance (congrArg Token.kind htoken) TokenKind.noConfusion (.refl c) .part
      fun e span' hspan he => .pure ⟨_, he, _, .keyword k, ?_⟩
    rw [← hspan, htoken]
    rfl
  · exact .fail _

end Parse

namespace Expr

open Parse

variable {expression nested operand : Parse Expr}

theorem makes_infixChain (h : Makes Spells operand) (level : Nat) :
    Makes Spells (infixChain level operand) := by
  intro c
  refine .bind <| .look <| .bind <| .take h (.refl c) fun first d us hfirst hus => ?_
  refine .loop (I := fun left d => ∃ us, c.Takes us d ∧ Spells us left) ⟨us, hus, hfirst⟩ ?_
  rintro left d ⟨us, hus, hleft⟩
  refine .bind <| .look ?_
  split
  · exact .pure ⟨us, hus, hleft⟩
  · rename_i op hop
    refine .bind <| .advance (InfixOp.eq_token_of_atLevel hop) op.token_ne_endOfInput hus .part
      fun e a _ ha => .bind <| .take h ha fun right f vs hright hvs => ?_
    refine .bind <| .spanFrom rfl hvs (by simp) fun span hspan => .pure ?_
    exact ⟨⟨_, hvs, .infixed op a hleft hright hspan⟩, hus.length_lt_of hvs (by simp)⟩

theorem makes_infixes (h : Makes Spells operand) : ∀ n, Makes Spells (infixes operand n)
  | 0 => h
  | n + 1 => makes_infixChain (makes_infixes h n) _

theorem makes_pipeline (h : Makes Spells operand) : Makes Spells (pipeline operand) := by
  intro c
  have hoperand := makes_infixes h InfixOp.tightest
  refine .bind <| .look <| .bind <| .take hoperand (.refl c) fun head d us hhead hus => ?_
  let Taken := c.TakesClauses us Clause.SpellsStage
  have hstage : ∀ stages d, Taken stages d →
      ∀ optional, d.token.kind = .symbol (if optional then .pipeQuestion else .pipe) → Ensures
        (do
          advance
          return Progress.more (stages ++ [⟨optional, ← infixes operand InfixOp.tightest⟩]))
        (fun r e => r.Either (fun stages => Taken stages e ∧ e.rest.length < d.rest.length)
          fun stages => Taken stages e) d := by
    rintro stages d ⟨cs, rfl, hcs, htakes⟩ optional hkind
    refine .bind <| .advance hkind TokenKind.noConfusion htakes .part fun e a _ ha => ?_
    refine .bind <| .take hoperand ha fun body f vs hbody hvs => .pure ?_
    exact Cursor.takesClauses_concat (x := ⟨[.symbol _ a], vs, [], ⟨optional, body⟩⟩) hcs
      ⟨⟨a, rfl, rfl⟩, hbody⟩ (by simp [Clause.signs]) htakes
        (by simpa [Clause.signs, Sign.part] using hvs)
  refine .bind <| .mono (.loop (I := Taken) (Q := Taken) (Cursor.takesClauses_nil hus)
    fun stages d hstages => ?_) ?_
  · refine .bind <| .look ?_
    split
    · exact hstage _ _ hstages false ‹_›
    · exact hstage _ _ hstages true ‹_›
    · exact .pure hstages
  · rintro stages d ⟨cs, rfl, hcs, htakes⟩
    split
    · rename_i hempty
      obtain rfl : cs = [] := by simpa using hempty
      exact .pure ⟨us, by simpa using htakes, hhead⟩
    · refine .bind <| .spanFrom rfl htakes (by simp [hhead.ne_nil]) fun span hspan => .pure ?_
      exact ⟨_, htakes, .pipe hhead (fun x hx => (hcs x hx).2) (fun x hx => (hcs x hx).1) hspan⟩

theorem makes_delimited {S : List Sign → α → Prop} {item : Parse α} (close : Symbol)
    (h : Makes S item) (hne : ∀ us x, S us x → us ≠ []) :
    Makes (fun us xs => ∃ uss vs b, List.Forall₂ S uss xs ∧ Listed uss vs ∧
      us = vs ++ [.symbol close b]) (delimited close item) := by
  intro c
  refine .bind <| .mono (.loop (I := c.TakesItems S) (Q := c.TakesList S) Cursor.takesItems_nil
    fun xs d hxs => .bind <| .look ?_) ?_
  · split
    · exact .pure hxs.list
    · exact hxs.ensures_item h (f := id) fun us x hx => ⟨hx, hne us x hx⟩
  · rintro xs d ⟨uss, vs, hitems, hlisted, htakes⟩
    refine .bind <| .expect TokenKind.noConfusion htakes .part fun e b hb => .pure ?_
    exact ⟨_, hb, uss, vs, b, hitems, hlisted, rfl⟩

theorem makes_argument (h : Makes Spells expression) :
    Makes (Clause.Holds Clause.SpellsArgument) (argument expression) := by
  intro c
  refine .bind <| .look ?_
  split
  · rename_i span htoken
    refine .bind <| .advance (congrArg Token.kind htoken) TokenKind.noConfusion (.refl c) .part
      fun e span' hspan he => .pure ⟨_, he, ⟨[.symbol .hash span], [], [], .placeholder span⟩,
        ⟨⟨rfl, rfl, rfl⟩, fun e he => nomatch he⟩, ?_, rfl⟩
    rw [← hspan, htoken]
    rfl
  · refine .bind <| .take h (.refl c) fun e d us he hus =>
      .pure ⟨_, hus, ⟨[], us, [], .value e⟩, ?_⟩
    refine ⟨⟨⟨rfl, rfl⟩, ?_⟩, by simp [Clause.signs], rfl⟩
    rintro _ ⟨⟩
    exact he

theorem makes_property (h : Makes Spells expression) :
    Makes (Clause.Holds Clause.SpellsProperty) (property expression) := by
  intro c
  refine .bind <| .look ?_
  have hrest : ∀ (key : Key) {d : Cursor} {kind : TokenKind}, key.IsWritten kind →
      c.Takes [.part kind key.span] d → Ensures
        (do
          expect (.symbol .colon)
          let value ← expression
          return ⟨key, value, ← spanFrom c.token.span⟩)
        (fun p d => ∃ us, c.Takes us d ∧ Clause.Holds Clause.SpellsProperty us p) d := by
    intro key d kind hkey htakes
    refine .bind <| .expect TokenKind.noConfusion htakes .part fun e a ha => ?_
    refine .bind <| .take h ha fun value f us hvalue hus => ?_
    refine .bind <| .spanFrom rfl hus (by simp) fun span hspan => .pure ?_
    have hsigns : (⟨[.part kind key.span, .symbol .colon a], us, [], ⟨key, value, span⟩⟩ :
        Clause (Property Expr)).signs = [.part kind key.span] ++ [.symbol .colon a] ++ us := by
      simp [Clause.signs]
    exact ⟨_, hus, _, ⟨⟨kind, a, hkey, rfl, rfl, hsigns ▸ hspan⟩, hvalue⟩, hsigns, rfl⟩
  dsimp only
  split
  · rename_i s hkind
    exact .bind <| .advance hkind TokenKind.noConfusion (.refl c) .part fun e a ha he =>
      hrest (.literal (.string s) _) rfl (ha ▸ he)
  · rename_i x hkind
    exact .bind <| .advance hkind TokenKind.noConfusion (.refl c) .part fun e a ha he =>
      hrest (.literal (.number x) _) rfl (ha ▸ he)
  · refine .bind <| .take makes_expectPropertyName (.refl c) fun n e us hn he => ?_
    obtain ⟨kind, hkind, rfl⟩ := hn
    exact hrest (.name n) hkind he

theorem makes_elements (h : Makes Spells expression) :
    Makes (fun us xs => ∃ uss vs b, List.Forall₂ (Clause.Holds Clause.SpellsElement) uss xs ∧
      Listed uss vs ∧ us = vs ++ [.symbol .rightBracket b]) (elements expression) := by
  intro c
  refine .bind <| .mono (.loop (I := c.TakesItems (Clause.Holds Clause.SpellsElement))
    (Q := c.TakesList (Clause.Holds Clause.SpellsElement)) Cursor.takesItems_nil
    fun xs d hxs => .bind <| .look ?_) ?_
  · split
    · exact .pure hxs.list
    · obtain ⟨uss, ts, hitems, hpunctuated, htakes⟩ := hxs
      refine .bind <| .eat TokenKind.noConfusion htakes .part (fun e a ha => .pure ?_) fun _ => ?_
      · -- A comma where an element could begin is behind a hole.
        have hhole : Clause.Holds Clause.SpellsElement [] none :=
          ⟨⟨[], [], [], none⟩, ⟨⟨rfl, rfl, fun _ => rfl⟩, by simp⟩, rfl, rfl⟩
        refine ⟨⟨_, _, List.rel_append hitems (.cons hhole .nil), .concat hpunctuated a, ?_⟩,
          htakes.length_lt_of ha (by simp)⟩
        simpa [Sign.part] using ha
      · refine Cursor.TakesItems.ensures_item ⟨uss, ts, hitems, hpunctuated, htakes⟩ h (f := some)
          fun us e he => ⟨⟨⟨[], us, [], some e⟩, ⟨⟨rfl, rfl, by simp⟩, ?_⟩, ?_, rfl⟩, he.ne_nil⟩
        · rintro _ ⟨⟩
          exact he
        · simp [Clause.signs]
  · rintro xs d ⟨uss, vs, hitems, hlisted, htakes⟩
    refine .bind <| .expect TokenKind.noConfusion htakes .part fun e b hb => .pure ?_
    exact ⟨_, hb, uss, vs, b, hitems, hlisted, rfl⟩

/-- A lambda is looked ahead for, and then no comma is behind its last parameter. -/
theorem role_eq_part {ns : List Name} {vs : List Sign} {ks : List TokenKind}
    (h : Listed (ns.map fun n => [n.sign]) vs)
    (hnames : isParameters (vs.map (·.token.kind) ++ .symbol .rightParen :: ks) = true) :
    ∀ u ∈ vs, u.role = .part := by
  generalize huss : (ns.map fun n => [n.sign]) = uss at h
  induction h generalizing ns with
  | nil => exact List.forall_mem_nil _
  | last =>
    obtain ⟨n, rfl, rfl⟩ := List.map_eq_singleton_iff.1 huss
    exact List.forall_mem_singleton.2 rfl
  | trailing =>
    obtain ⟨n, rfl, rfl⟩ := List.map_eq_singleton_iff.1 huss
    cases hnames
  | hole =>
    obtain ⟨n, rfl, hn⟩ := List.map_eq_singleton_iff.1 huss
    cases hn
  | more a _ _ ih =>
    obtain ⟨n, ns, rfl, rfl, hns⟩ := List.map_eq_cons_iff.1 huss
    have hparts := ih (Bool.or_eq_true_iff.2 (.inr hnames)) hns
    simpa [Name.sign, Sign.part] using hparts

theorem eq_sign_of_listed {n : Name} {vs : List Sign} (h : Listed [[n.sign]] vs)
    (hparts : ∀ u ∈ vs, u.role = .part) : vs = [n.sign] := by
  cases h with
  | last => rfl
  | trailing => simp at hparts
  | more _ _ hne => exact absurd rfl hne

theorem ensures_parameters {c : Cursor} (hc : c.token.kind = .symbol .leftParen →
    isParameters ((c.rest.drop 1).map (·.kind)) = true) :
    Ensures parameters (fun ns d => ∃ us, c.Takes us d ∧ Parameters us ns) c := by
  refine .bind <| .eat TokenKind.noConfusion (.refl c) .part (fun d a ha => ?_) fun _ => ?_
  · refine .mono (makes_delimited _ makes_expectIdentifier (by simp) d) ?_
    rintro ns e ⟨_, hus, uss, vs, b, hitems, hlisted, rfl⟩
    obtain rfl : uss = ns.map fun n => [n.sign] :=
      List.forall₂_eq_eq_eq ▸ List.forall₂_map_right_iff.2 hitems
    have htakes := ha.trans hus
    have hparts : ∀ u ∈ vs, u.role = .part := by
      have hrest := htakes.rest_eq
      have hkind : c.token.kind = .symbol .leftParen := by rw [Cursor.token, hrest]; rfl
      have hnames := hc hkind
      have hnames' : isParameters (vs.map (·.token.kind) ++
          .symbol .rightParen :: e.rest.map (·.kind)) = true := by
        simpa [hrest, Sign.part, Function.comp_def] using hnames
      exact role_eq_part hlisted hnames'
    -- What the parentheses are for is known only behind them.
    by_cases hlength : ns.length = 1
    · obtain ⟨n, rfl⟩ := List.length_eq_one_iff.1 hlength
      obtain rfl := eq_sign_of_listed hlisted hparts
      exact ⟨_, htakes.congr (by simp [Sign.part]), .single n a b⟩
    · exact ⟨_, htakes.congr (by simp [Sign.part]), .several a b hlength hlisted hparts⟩
  · refine .bind <| .take makes_expectIdentifier (.refl c) fun n d us hn hus => .pure ?_
    subst hn
    exact ⟨_, hus, .bare n⟩

theorem ensures_lambdaFrom (h : Makes Spells expression) {c : Cursor}
    (hc : c.token.kind = .symbol .leftParen →
      isParameters ((c.rest.drop 1).map (·.kind)) = true) :
    Ensures (lambdaFrom expression) (fun e d => ∃ us, c.Takes us d ∧ Spells us e) c := by
  refine .bind <| .look <| .bind <| .mono (ensures_parameters hc) ?_
  rintro ns d ⟨us, hus, hparameters⟩
  refine .bind <| .expect TokenKind.noConfusion hus .part fun e a ha => ?_
  refine .bind <| .take h ha fun body f vs hbody hvs => ?_
  exact .bind <| .spanFrom rfl hvs (by simp) fun span hspan => .pure
    ⟨_, hvs, .lambda a hparameters hbody hspan⟩

theorem ensures_conditionalFrom (h : Makes Spells expression) {c : Cursor}
    (hc : c.token.kind = .keyword .if_) :
    Ensures (conditionalFrom expression) (fun e d => ∃ us, c.Takes us d ∧ Spells us e) c := by
  refine .bind <| .look <| .bind <| .advance hc TokenKind.noConfusion (.refl c) .part
    fun d a _ ha => .bind <| .take h ha fun test d us htest hus => ?_
  refine .bind <| .expect TokenKind.noConfusion hus .part fun e b hb => ?_
  refine .bind <| .take h hb fun consequent e vs hconsequent hvs => .bind ?_
  refine .eat TokenKind.noConfusion hvs .part (fun f x hx => ?_) fun _ => ?_
  · refine .bind <| .take h hx fun alternate f ws halternate hws => ?_
    exact .bind <| .spanFrom rfl hws (by simp) fun span hspan => .pure
      ⟨_, hws, .conditionalElse a b x htest hconsequent halternate hspan⟩
  · exact .bind <| .spanFrom rfl hvs (by simp) fun span hspan => .pure
      ⟨_, hvs, .conditional a b htest hconsequent hspan⟩

theorem makes_declaration (h : Makes Spells expression) :
    Makes (Clause.Holds Clause.SpellsDeclaration) (declaration expression) := by
  intro c
  refine .bind <| .take makes_expectIdentifier (.refl c) fun n d us hn hus => ?_
  subst hn
  refine .bind <| .expect TokenKind.noConfusion hus .part fun e a ha => ?_
  refine .bind <| .take h ha fun init e us hinit hus => ?_
  refine .bind <| .expect TokenKind.noConfusion hus .part fun f b hb => .pure ⟨_, hb, ?_⟩
  exact ⟨⟨[n.sign, .symbol .equal a], us, [.symbol .comma b], ⟨n, init, _⟩⟩,
    ⟨⟨a, b, rfl, rfl, rfl⟩, hinit⟩, by simp [Clause.signs, Sign.part], rfl⟩

theorem ensures_letFrom (h : Makes Spells expression) {c : Cursor}
    (hc : c.token.kind = .keyword .let_) :
    Ensures (letFrom expression) (fun e d => ∃ us, c.Takes us d ∧ Spells us e) c := by
  refine .bind <| .look <| .bind <| .advance hc TokenKind.noConfusion (.refl c) .part
    fun d a _ ha => ?_
  let I := c.TakesClauses [.keyword .let_ a] Clause.SpellsDeclaration
  refine .bind <| .mono (.loop (I := I) (Q := I) (Cursor.takesClauses_nil ha) ?_) ?_
  · rintro ds d ⟨cs, rfl, hcs, htakes⟩
    refine .bind <| .take (makes_declaration h) htakes fun _ e _ hx hus => ?_
    obtain ⟨x, hx, rfl, rfl⟩ := hx
    have hconcat := Cursor.takesClauses_concat hcs hx hx.1.signs_ne_nil htakes hus
    refine .bind <| .look ?_
    split
    · refine .bind <| .look ?_
      split
      · exact .pure hconcat
      · exact .pure hconcat.1
    · exact .pure hconcat.1
  · rintro ds d ⟨cs, rfl, hcs, htakes⟩
    refine .bind <| .take h htakes fun body e us hbody hus => ?_
    exact .bind <| .spanFrom rfl hus (by simp) fun span hspan => .pure
      ⟨_, hus, .letIn a (fun x hx => (hcs x hx).2) (fun x hx => (hcs x hx).1) hbody hspan⟩

theorem makes_primary (h : Makes Spells expression) : Makes Spells (primary expression) := by
  intro c
  have hleaf : ∀ {kind : TokenKind} {e : Expr}, c.token.kind = kind → kind ≠ .endOfInput →
      Spells [.part kind c.token.span] e →
      Ensures (do advance; return e) (fun e d => ∃ us, c.Takes us d ∧ Spells us e) c :=
    fun hkind hne he => .bind <| .advance hkind hne (.refl c) .part fun d a ha htakes =>
      .pure ⟨_, htakes, ha ▸ he⟩
  refine .bind <| .look ?_
  dsimp only
  split <;> rename_i hkind
  · exact hleaf hkind TokenKind.noConfusion (.literal _ (.number _))
  · exact hleaf hkind TokenKind.noConfusion (.literal _ (.string _))
  · exact hleaf hkind TokenKind.noConfusion (.literal _ (.boolean true))
  · exact hleaf hkind TokenKind.noConfusion (.literal _ (.boolean false))
  · exact hleaf hkind TokenKind.noConfusion (.literal _ .null)
  · exact hleaf hkind TokenKind.noConfusion (.topic _)
  · refine .bind <| .look ?_
    split
    · exact ensures_lambdaFrom h fun hparen => by rw [hkind] at hparen; cases hparen
    · exact hleaf hkind TokenKind.noConfusion (.identifier _ _)
  · refine .bind <| .look ?_
    split
    · exact ensures_lambdaFrom h fun _ => ‹_›
    · refine .bind <| .advance hkind TokenKind.noConfusion (.refl c) .grouping fun d a _ ha => ?_
      refine .bind <| .take h ha fun e d us he hus => ?_
      exact .bind <| .expect TokenKind.noConfusion hus .grouping fun d b hb =>
        .pure ⟨_, hb, .group a b he⟩
  · refine .bind <| .advance hkind TokenKind.noConfusion (.refl c) .part fun d a ha htakes => ?_
    refine .bind <| .take (makes_elements h) htakes fun es d _ hes hus => ?_
    obtain ⟨uss, vs, b, hitems, hlisted, rfl⟩ := hes
    obtain ⟨cs, hcs, rfl, rfl⟩ := exists_clauses hitems
    rw [← List.append_assoc] at hus
    exact .bind <| .spanFrom rfl hus (by simp) fun span hspan => .pure
      ⟨_, hus, .array a b (fun x hx => (hcs x hx).2) (fun x hx => (hcs x hx).1) hlisted hspan⟩
  · refine .bind <| .advance hkind TokenKind.noConfusion (.refl c) .part fun d a ha htakes => ?_
    refine .bind <| .take (makes_delimited _ (makes_property h) fun us p hp => ?_) htakes
      fun ps d _ hps hus => ?_
    · obtain ⟨x, hx, rfl, -⟩ := hp
      exact hx.1.signs_ne_nil
    obtain ⟨uss, vs, b, hitems, hlisted, rfl⟩ := hps
    obtain ⟨cs, hcs, rfl, rfl⟩ := exists_clauses hitems
    rw [← List.append_assoc] at hus
    exact .bind <| .spanFrom rfl hus (by simp) fun span hspan => .pure
      ⟨_, hus, .object a b (fun x hx => (hcs x hx).2) (fun x hx => (hcs x hx).1) hlisted hspan⟩
  · exact ensures_conditionalFrom h hkind
  · exact ensures_letFrom h hkind
  · exact .fail _
  · exact .fail _

/-- The access or the call that follows makes a tree of all tokens since the start. -/
theorem ensures_access (h : Makes Spells expression) {c d : Cursor} {us : List Sign} {e : Expr}
    (hus : c.Takes us d) (he : Spells us e) : Ensures (access expression c.token.span e)
      (fun r d' => r.Either
        (fun e' => (∃ vs, c.Takes vs d' ∧ Spells vs e') ∧ d'.rest.length < d.rest.length)
        fun e' => ∃ vs, c.Takes vs d' ∧ Spells vs e') d := by
  have hname : ∀ extended : Bool,
      d.token.kind = .symbol (if extended then .colonColon else .dot) → Ensures
        (do
          advance
          let name ← expectPropertyName
          return Progress.more
            (.member (← spanFrom c.token.span) e (.identifier name.span name.text) false extended))
        (fun r d' => r.Either
          (fun e' => (∃ vs, c.Takes vs d' ∧ Spells vs e') ∧ d'.rest.length < d.rest.length)
          fun e' => ∃ vs, c.Takes vs d' ∧ Spells vs e') d := fun extended hkind => by
    refine .bind <| .advance hkind TokenKind.noConfusion hus .part fun e' a _ ha => ?_
    refine .bind <| .take makes_expectPropertyName ha fun n d' _ hn hvs => ?_
    obtain ⟨kind, hkind, rfl⟩ := hn
    exact .bind <| .spanFrom rfl hvs (by simp) fun span hspan => .pure
      ⟨⟨_, hvs, .access extended a n.span he hkind hspan⟩, hus.length_lt_of hvs (by simp)⟩
  refine .bind <| .look ?_
  split <;> rename_i hkind
  · exact hname false hkind
  · exact hname true hkind
  · refine .bind <| .advance hkind TokenKind.noConfusion hus .part fun e' a _ ha => ?_
    refine .bind <| .take h ha fun key d' vs hkey hvs => ?_
    refine .bind <| .expect TokenKind.noConfusion hvs .part fun e' b hb => ?_
    exact .bind <| .spanFrom rfl hb (by simp) fun span hspan => .pure
      ⟨⟨_, hb, .lookup a b he hkey hspan⟩, hus.length_lt_of hb (by simp)⟩
  · refine .bind <| .advance hkind TokenKind.noConfusion hus .part fun e' a _ ha => ?_
    refine .bind <| .take (makes_delimited _ (makes_argument h) fun us x hx => ?_) ha
      fun as d' _ has hvs => ?_
    · obtain ⟨x, hx, rfl, -⟩ := hx
      exact hx.1.signs_ne_nil hx.2
    obtain ⟨uss, vs, b, hitems, hlisted, rfl⟩ := has
    obtain ⟨cs, hcs, rfl, rfl⟩ := exists_clauses hitems
    rw [← List.append_assoc] at hvs
    exact .bind <| .spanFrom rfl hvs (by simp) fun span hspan => .pure
      ⟨⟨_, hvs, .call a b he (fun x hx => (hcs x hx).2) (fun x hx => (hcs x hx).1) hlisted hspan⟩,
        hus.length_lt_of hvs (by simp)⟩
  · exact .pure ⟨us, hus, he⟩

theorem makes_postfixed (h : Makes Spells expression) : Makes Spells (postfixed expression) := by
  intro c
  refine .bind <| .look <| .bind <| .take (makes_primary h) (.refl c)
    fun first d us hfirst hus => ?_
  refine .loop (I := fun e d => ∃ us, c.Takes us d ∧ Spells us e) ⟨us, hus, hfirst⟩ ?_
  rintro e d ⟨us, hus, he⟩
  exact ensures_access h hus he

theorem makes_prefixed (h : Makes Spells expression) (hn : Makes Spells nested) :
    Makes Spells (prefixed expression nested) := by
  intro c
  refine .bind <| .look <| .bind <| .look ?_
  split
  · rename_i op hop
    refine .bind <| .advance (UnaryOp.eq_token_of_ofToken? hop) op.token_ne_endOfInput (.refl c)
      .part fun d a _ ha => .bind <| .take hn ha fun e d us he hus => ?_
    exact .bind <| .spanFrom rfl hus (by simp) fun span hspan => .pure
      ⟨_, hus, .unary op a he hspan⟩
  · refine .bind <| .take (makes_postfixed h) (.refl c) fun base d us hbase hus => .bind ?_
    refine .eat TokenKind.noConfusion hus .part (fun d a ha => ?_) fun _ => .pure ⟨us, hus, hbase⟩
    refine .bind <| .take hn ha fun exponent d vs hexponent hvs => ?_
    exact .bind <| .spanFrom rfl hvs (by simp) fun span hspan => .pure
      ⟨_, hvs, .infixed (.binary .pow) a hbase hexponent hspan⟩

theorem makes_parsers (n : Nat) : Makes Spells (parser n) ∧ Makes Spells (operandParser n) := by
  induction n with
  | zero => exact ⟨fun _ => .fail _, fun _ => .fail _⟩
  | succ n ih =>
    have hprefixed := makes_prefixed ih.1 ih.2
    exact ⟨makes_pipeline hprefixed, hprefixed⟩

theorem exists_rest_eq_nil {ts : List Token} {e : Expr} (h : ofTokens ts = ⟨some e, []⟩) :
    ∃ c : Cursor, parser maxNesting (.ofTokens ts) = .ok (e, c) ∧ c.rest = [] := by
  unfold ofTokens at h
  rcases hparser : parser maxNesting (.ofTokens ts) with f | ⟨t, c⟩ <;> rw [hparser] at h
  · cases h
  · cases hdeep : t.deeperThan? maxHeight with
    | some node => simp [hdeep] at h
    | none =>
      simp only [hdeep, Parsed.mk.injEq, Option.some.injEq] at h
      obtain ⟨rfl, hrest⟩ := h
      refine ⟨c, rfl, ?_⟩
      by_contra hne
      simp [hne] at hrest

theorem ofTokens_of_parse {text : String} {e : Expr} (h : parse text = .ok e) :
    (lex text).findings = [] ∧ ofTokens (lex text).tokens = ⟨some e, []⟩ := by
  simp only [parse] at h
  split at h
  · rename_i hclean
    split at h
    · rename_i hparsed
      cases h
      exact ⟨List.isEmpty_iff.1 hclean, hparsed⟩
    · cases h
  · cases h

/-- All tokens of a text that is parsed spell its tree. -/
theorem spells_of_parse {text : String} {e : Expr} (h : parse text = .ok e) :
    ∃ us last, (lex text).tokens = us.map (·.token) ++ [last] ∧ last.kind = .endOfInput ∧
      (∀ u ∈ us, u.token.kind ≠ .endOfInput) ∧ Spells us e := by
  obtain ⟨c, hparser, hrest⟩ := exists_rest_eq_nil (ofTokens_of_parse h).2
  obtain ⟨us, htakes, hspells⟩ := (makes_parsers maxNesting).1 _ _ _ hparser
  obtain ⟨ts, last, htokens, hlast, hts⟩ := (Lexer.tiles_lex text).one_end
  have htaken : (lex text).tokens.takeWhile (fun t => t.kind ≠ .endOfInput) = ts := by
    rw [htokens, List.takeWhile_append_of_pos fun t ht => decide_eq_true (hts t ht),
      List.takeWhile_cons_of_neg (by simp [hlast]), List.append_nil]
  have hus : ts = us.map (·.token) := by
    rw [← htaken, ← List.append_nil (us.map _), ← hrest]
    exact htakes.rest_eq
  subst hus
  exact ⟨us, last, htokens, hlast, fun u hu => hts _ (List.mem_map_of_mem hu), hspells⟩

end Expr

end ExprLang
