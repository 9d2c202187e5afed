import ExprLang.Expr.Parser
import ExprLang.Proofs.Shapes

/-!
Parsing without spans. What a parser reads depends on the kinds of the tokens only: with the spans
taken from the tokens it reads the same, with the spans taken from what it reads.
-/
namespace ExprLang

variable {α β δ ε : Type}

def Token.eraseSpan (t : Token) : Token := ⟨t.kind, noSpan⟩

def Finding.eraseSpan (f : Finding) : Finding := ⟨f.problem, noSpan⟩

namespace Cursor

def eraseSpans (c : Cursor) : Cursor := ⟨c.rest.map Token.eraseSpan, noSpan, noSpan⟩

theorem token_eraseSpans (c : Cursor) : c.eraseSpans.token = c.token.eraseSpan := by
  rw [token, token, eraseSpans, List.head?_map]
  cases c.rest.head? <;> rfl

theorem kind_token_eraseSpans (c : Cursor) : c.eraseSpans.token.kind = c.token.kind :=
  c.token_eraseSpans ▸ rfl

theorem eraseSpans_ofTokens (ts : List Token) :
    (ofTokens ts).eraseSpans = ofTokens (ts.map Token.eraseSpan) := by
  have hkind : (fun t : Token => decide (t.kind ≠ .endOfInput)) ∘ Token.eraseSpan =
      fun t => decide (t.kind ≠ .endOfInput) := rfl
  have hend : (fun t : Token => decide (t.kind = .endOfInput)) ∘ Token.eraseSpan =
      fun t => decide (t.kind = .endOfInput) := rfl
  rw [eraseSpans, ofTokens, ofTokens, List.takeWhile_map, hkind, List.find?_map, hend,
    List.getLast?_map]
  cases ts.find? fun t => t.kind = .endOfInput with
  | some t => rfl
  | none => cases ts.getLast? <;> rfl

end Cursor

namespace Parse

def Progress.map (f : α → β) : Progress α → Progress β
  | .more a => .more (f a)
  | .done a => .done (f a)

def eraseOutcome (f : α → β) : Except Finding (α × Cursor) → Except Finding (β × Cursor)
  | .error finding => .error finding.eraseSpan
  | .ok (a, c) => .ok (f a, c.eraseSpans)

/-- From tokens without spans the second parser reads what the first reads, without its spans. -/
def Erases (f : α → β) (m : Parse α) (m' : Parse β) : Prop :=
  ∀ c, m' c.eraseSpans = eraseOutcome f (m c)

namespace Erases

variable {f : α → β} {g : δ → ε}

theorem pure {a : α} {b : β} (h : f a = b) : Erases f (Pure.pure a) (Pure.pure b) := fun _ =>
  h ▸ rfl

theorem bind {m : Parse α} {m' : Parse β} {k : α → Parse δ} {k' : β → Parse ε}
    (h : Erases f m m') (hk : ∀ a, Erases g (k a) (k' (f a))) :
    Erases g (m >>= k) (m' >>= k') := by
  intro c
  change (m' c.eraseSpans >>= fun r => k' r.1 r.2) = eraseOutcome g (m c >>= fun r => k r.1 r.2)
  rw [h c]
  cases m c with
  | error finding => rfl
  | ok r => exact hk r.1 r.2

theorem fail (p : TokenKind → Problem) : Erases f (Parse.fail p) (Parse.fail p) := fun c => by
  rw [Parse.fail, c.kind_token_eraseSpans, c.token_eraseSpans]
  rfl

theorem peek : Erases Token.eraseSpan Parse.peek Parse.peek := fun c =>
  congrArg (fun t => Except.ok (t, c.eraseSpans)) c.token_eraseSpans

theorem peekKind : Erases id Parse.peekKind Parse.peekKind := fun c =>
  congrArg (fun k => Except.ok (k, c.eraseSpans)) c.kind_token_eraseSpans

theorem peekSpan : Erases (fun _ => noSpan) Parse.peekSpan Parse.peekSpan := fun c =>
  congrArg (fun t : Token => Except.ok (t.span, c.eraseSpans)) c.token_eraseSpans

theorem ahead (test : List TokenKind → Bool) :
    Erases id (Parse.ahead test) (Parse.ahead test) := fun c => by
  have hkinds : (c.eraseSpans.rest.drop 1).map (·.kind) = (c.rest.drop 1).map (·.kind) := by
    rw [Cursor.eraseSpans, ← List.map_drop, List.map_map]
    rfl
  exact congrArg (fun ks => Except.ok (test ks, c.eraseSpans)) hkinds

theorem advance : Erases id Parse.advance Parse.advance := fun c => by
  rw [Parse.advance, c.token_eraseSpans, Cursor.eraseSpans, ← List.map_drop]
  rfl

theorem spanFrom (start : Span) :
    Erases (fun _ => noSpan) (Parse.spanFrom start) (Parse.spanFrom noSpan) := fun _ => rfl

theorem eat (kind : TokenKind) : Erases id (Parse.eat kind) (Parse.eat kind) :=
  bind peekKind fun k => by
    dsimp only [id]
    split
    · exact bind advance fun _ => pure rfl
    · exact pure rfl

theorem expect (kind : TokenKind) : Erases id (Parse.expect kind) (Parse.expect kind) :=
  bind peekKind fun k => by
    dsimp only [id]
    split
    · exact advance
    · exact fail _

theorem expectIdentifier :
    Erases Name.eraseSpan Parse.expectIdentifier Parse.expectIdentifier :=
  bind peek fun t => by
    rcases t with ⟨k, span⟩
    cases k with
    | identifier name => exact bind advance fun _ => pure rfl
    | _ => exact fail _

theorem expectPropertyName :
    Erases Name.eraseSpan Parse.expectPropertyName Parse.expectPropertyName :=
  bind peek fun t => by
    rcases t with ⟨k, span⟩
    cases k with
    | identifier name => exact bind advance fun _ => pure rfl
    | keyword k => exact bind advance fun _ => pure rfl
    | _ => exact fail _

theorem iterate {step : α → Parse (Progress α)} {step' : β → Parse (Progress β)}
    (h : ∀ a, Erases (Progress.map f) (step a) (step' (f a))) :
    ∀ (n : Nat) (a : α), Erases f (Parse.iterate step n a) (Parse.iterate step' n (f a))
  | 0, _ => pure rfl
  | n + 1, a => bind (h a) fun r => by
    cases r with
    | more b => exact iterate h n b
    | done b => exact pure rfl

theorem loop {step : α → Parse (Progress α)} {step' : β → Parse (Progress β)} {a : α} {b : β}
    (hab : f a = b) (h : ∀ a, Erases (Progress.map f) (step a) (step' (f a))) :
    Erases f (Parse.loop a step) (Parse.loop b step') := fun c => by
  subst hab
  -- As many tokens are left without their spans, so there are as many rounds.
  have hfuel : c.eraseSpans.rest.length = c.rest.length := List.length_map _
  rw [Parse.loop, hfuel]
  exact iterate h _ a c

end Erases

end Parse

namespace Expr

open Parse

variable {expression nested operand : Parse Expr}
  {expression' nested' operand' : Parse Expr}

theorem erases_infixChain (h : Erases eraseSpans operand operand') (level : Nat) :
    Erases eraseSpans (infixChain level operand) (infixChain level operand') := by
  refine .bind .peekSpan fun start => .bind h fun first => .loop rfl fun left => ?_
  refine .bind .peekKind fun k => ?_
  dsimp only [id]
  cases InfixOp.atLevel level k with
  | none => exact .pure rfl
  | some op =>
    refine .bind .advance fun _ => .bind h fun right => .bind (.spanFrom start) fun span => ?_
    exact .pure (by cases op <;> rfl)

theorem erases_infixes (h : Erases eraseSpans operand operand') :
    ∀ n, Erases eraseSpans (infixes operand n) (infixes operand' n)
  | 0 => h
  | n + 1 => erases_infixChain (erases_infixes h n) _

theorem erases_pipeline (h : Erases eraseSpans operand operand') :
    Erases eraseSpans (pipeline operand) (pipeline operand') := by
  have hoperand := erases_infixes h InfixOp.tightest
  refine .bind .peekSpan fun start => .bind hoperand fun head => ?_
  refine .bind (f := List.map Stage.eraseSpans) (.loop rfl fun ss => .bind .peekKind fun k => ?_)
    fun ss => ?_
  · have hmore : ∀ optional body, Progress.map (List.map Stage.eraseSpans)
        (.more (ss ++ [⟨optional, body⟩])) =
          .more (ss.map Stage.eraseSpans ++ [⟨optional, body.eraseSpans⟩]) :=
      fun _ _ => congrArg Progress.more List.map_append
    dsimp only [id]
    split
    · exact .bind .advance fun _ => .bind hoperand fun body => .pure (hmore _ body)
    · exact .bind .advance fun _ => .bind hoperand fun body => .pure (hmore _ body)
    · exact .pure rfl
  · rw [List.isEmpty_map]
    split
    · exact .pure rfl
    · refine .bind (.spanFrom start) fun span => .pure ?_
      rw [eraseSpans, eraseStages_eq_map]

theorem erases_delimited {f : α → β} {item : Parse α} {item' : Parse β} (close : Symbol)
    (h : Erases f item item') :
    Erases (List.map f) (delimited close item) (delimited close item') := by
  refine .bind (.loop rfl fun xs => .bind .peekKind fun k => ?_) fun xs =>
    .bind (.expect _) fun _ => .pure rfl
  dsimp only [id]
  split
  · exact .pure rfl
  · refine .bind h fun x => .bind (.eat _) fun b => ?_
    cases b
    · exact .pure (congrArg Progress.done List.map_append)
    · exact .pure (congrArg Progress.more List.map_append)

theorem erases_argument (h : Erases eraseSpans expression expression') :
    Erases Argument.eraseSpans (argument expression) (argument expression') := by
  have hvalue : Erases Argument.eraseSpans (do return .value (← expression))
      (do return .value (← expression')) := .bind h fun _ => .pure rfl
  refine .bind .peek fun t => ?_
  rcases t with ⟨k, span⟩
  cases k with
  | symbol s =>
    cases s with
    | hash => exact .bind .advance fun _ => .pure rfl
    | _ => exact hvalue
  | _ => exact hvalue

theorem erases_property (h : Erases eraseSpans expression expression') :
    Erases Property.eraseSpans (property expression) (property expression') := by
  refine .bind .peek fun t => ?_
  have hrest : ∀ key, Erases Property.eraseSpans
      (do
        expect (.symbol .colon)
        let value ← expression
        return ⟨key, value, ← spanFrom t.span⟩)
      (do
        expect (.symbol .colon)
        let value ← expression'
        return ⟨key.eraseSpan, value, ← spanFrom noSpan⟩) := fun key =>
    .bind (.expect _) fun _ => .bind h fun value => .bind (.spanFrom _) fun _ => .pure rfl
  dsimp only [Token.eraseSpan]
  split
  · exact .bind .advance fun _ => hrest _
  · exact .bind .advance fun _ => hrest _
  · exact .bind .expectPropertyName fun _ => hrest _

theorem erases_elements (h : Erases eraseSpans expression expression') :
    Erases (List.map (Option.map eraseSpans)) (elements expression) (elements expression') := by
  refine .bind (.loop rfl fun es => .bind .peekKind fun k => ?_) fun es =>
    .bind (.expect _) fun _ => .pure rfl
  dsimp only [id]
  split
  · exact .pure rfl
  · refine .bind (.eat _) fun b => ?_
    cases b with
    | true => exact .pure (congrArg Progress.more List.map_append)
    | false =>
      refine .bind h fun e => .bind (.eat _) fun b => ?_
      cases b
      · exact .pure (congrArg Progress.done List.map_append)
      · exact .pure (congrArg Progress.more List.map_append)

theorem erases_parameters : Erases (List.map Name.eraseSpan) parameters parameters := by
  refine .bind (.eat _) fun b => ?_
  cases b
  · exact .bind .expectIdentifier fun _ => .pure rfl
  · exact erases_delimited _ .expectIdentifier

theorem erases_lambdaFrom (h : Erases eraseSpans expression expression') :
    Erases eraseSpans (lambdaFrom expression) (lambdaFrom expression') :=
  .bind .peekSpan fun start => .bind erases_parameters fun _ => .bind (.expect _) fun _ =>
    .bind h fun _ => .bind (.spanFrom start) fun _ => .pure rfl

theorem erases_conditionalFrom (h : Erases eraseSpans expression expression') :
    Erases eraseSpans (conditionalFrom expression) (conditionalFrom expression') := by
  refine .bind .peekSpan fun start => .bind .advance fun _ => .bind h fun test => ?_
  refine .bind (.expect _) fun _ => .bind h fun consequent => .bind (.eat _) fun b => ?_
  cases b
  · exact .bind (.spanFrom start) fun _ => .pure rfl
  · exact .bind h fun alternate => .bind (.spanFrom start) fun _ => .pure rfl

theorem span_eraseSpans (e : Expr) : e.eraseSpans.span = noSpan := by
  cases e <;> rfl

theorem erases_declaration (h : Erases eraseSpans expression expression') :
    Erases Declaration.eraseSpans (declaration expression) (declaration expression') := by
  refine .bind .expectIdentifier fun name => .bind (.expect _) fun _ => .bind h fun init => ?_
  refine .bind (.expect _) fun _ => .pure ?_
  rw [Declaration.eraseSpans, span_eraseSpans]
  rfl

theorem erases_letFrom (h : Erases eraseSpans expression expression') :
    Erases eraseSpans (letFrom expression) (letFrom expression') := by
  refine .bind .peekSpan fun start => .bind .advance fun _ => ?_
  refine .bind (f := List.map Declaration.eraseSpans)
    (.loop rfl fun ds => .bind (erases_declaration h) fun d => ?_) fun ds =>
      .bind h fun body => .bind (.spanFrom start) fun span => .pure ?_
  · refine .bind .peekKind fun k => ?_
    dsimp only [id]
    split
    · refine .bind (.ahead _) fun b => ?_
      dsimp only [id]
      split
      · exact .pure (congrArg Progress.more List.map_append)
      · exact .pure (congrArg Progress.done List.map_append)
    · exact .pure (congrArg Progress.done List.map_append)
  · rw [eraseSpans, eraseDeclarations_eq_map]

theorem erases_primary (h : Erases eraseSpans expression expression') :
    Erases eraseSpans (primary expression) (primary expression') := by
  refine .bind .peek fun t => ?_
  have hleaf : ∀ e e' : Expr, e.eraseSpans = e' →
      Erases eraseSpans (do advance; return e) (do advance; return e') :=
    fun e e' he => .bind .advance fun _ => .pure he
  dsimp only [Token.eraseSpan]
  split
  iterate 6 exact hleaf _ _ rfl
  · refine .bind (.ahead _) fun b => ?_
    dsimp only [id]
    split
    · exact erases_lambdaFrom h
    · exact hleaf _ _ rfl
  · refine .bind (.ahead _) fun b => ?_
    dsimp only [id]
    split
    · exact erases_lambdaFrom h
    · exact .bind .advance fun _ => .bind h fun e => .bind (.expect _) fun _ => .pure rfl
  · refine .bind .advance fun _ => .bind (erases_elements h) fun es => ?_
    refine .bind (.spanFrom _) fun span => .pure ?_
    rw [eraseSpans, eraseElements_eq_map]
  · refine .bind .advance fun _ => .bind (erases_delimited _ (erases_property h)) fun ps => ?_
    refine .bind (.spanFrom _) fun span => .pure ?_
    rw [eraseSpans, eraseProperties_eq_map]
  · exact erases_conditionalFrom h
  · exact erases_letFrom h
  · exact .fail _
  · exact .fail _

theorem erases_access (h : Erases eraseSpans expression expression') (start : Span) (e : Expr) :
    Erases (Progress.map eraseSpans) (access expression start e)
      (access expression' noSpan e.eraseSpans) := by
  refine .bind .peekKind fun k => ?_
  dsimp only [id]
  split
  · exact .bind .advance fun _ => .bind .expectPropertyName fun _ =>
      .bind (.spanFrom start) fun _ => .pure rfl
  · exact .bind .advance fun _ => .bind .expectPropertyName fun _ =>
      .bind (.spanFrom start) fun _ => .pure rfl
  · exact .bind .advance fun _ => .bind h fun _ => .bind (.expect _) fun _ =>
      .bind (.spanFrom start) fun _ => .pure rfl
  · refine .bind .advance fun _ => .bind (erases_delimited _ (erases_argument h)) fun as => ?_
    refine .bind (.spanFrom start) fun span => .pure ?_
    rw [Progress.map, eraseSpans, eraseArguments_eq_map]
  · exact .pure rfl

theorem erases_postfixed (h : Erases eraseSpans expression expression') :
    Erases eraseSpans (postfixed expression) (postfixed expression') :=
  .bind .peekSpan fun start => .bind (erases_primary h) fun _ =>
    .loop rfl fun e => erases_access h start e

theorem erases_prefixed (h : Erases eraseSpans expression expression')
    (hn : Erases eraseSpans nested nested') :
    Erases eraseSpans (prefixed expression nested) (prefixed expression' nested') := by
  refine .bind .peekSpan fun start => .bind .peekKind fun k => ?_
  dsimp only [id]
  cases UnaryOp.ofToken? k with
  | some op =>
    exact .bind .advance fun _ => .bind hn fun _ => .bind (.spanFrom start) fun _ => .pure rfl
  | none =>
    refine .bind (erases_postfixed h) fun base => .bind (.eat _) fun b => ?_
    cases b
    · exact .pure rfl
    · exact .bind hn fun _ => .bind (.spanFrom start) fun _ => .pure rfl

theorem erases_parsers (n : Nat) :
    Erases eraseSpans (parser n) (parser n) ∧
      Erases eraseSpans (operandParser n) (operandParser n) := by
  induction n with
  | zero => exact ⟨.fail _, .fail _⟩
  | succ n ih =>
    have hprefixed := erases_prefixed ih.1 ih.2
    exact ⟨erases_pipeline hprefixed, hprefixed⟩

theorem deeperThan?_eraseSpans (limit : Nat) (e : Expr) :
    e.eraseSpans.deeperThan? limit = (e.deeperThan? limit).map eraseSpans := by
  induction limit generalizing e with
  | zero => rfl
  | succ limit ih =>
    have hlimit : deeperThan? limit ∘ eraseSpans = Option.map eraseSpans ∘ deeperThan? limit :=
      funext ih
    rw [deeperThan?, deeperThan?, children_eraseSpans, List.findSome?_map, hlimit,
      ← List.map_findSome?]

def Parsed.eraseSpans (r : Parsed) : Parsed :=
  ⟨r.tree.map Expr.eraseSpans, r.findings.map Finding.eraseSpan⟩

/-- What is parsed from tokens without spans is what is parsed from the tokens, without spans. -/
theorem ofTokens_eraseSpans (ts : List Token) :
    ofTokens (ts.map Token.eraseSpan) = (ofTokens ts).eraseSpans := by
  have hparser := (erases_parsers maxNesting).1 (.ofTokens ts)
  rw [ofTokens, ofTokens, ← Cursor.eraseSpans_ofTokens, hparser]
  cases parser maxNesting (.ofTokens ts) with
  | error finding => rfl
  | ok r =>
    obtain ⟨e, c⟩ := r
    have hrest : c.eraseSpans.rest.isEmpty = c.rest.isEmpty := List.isEmpty_map
    simp only [eraseOutcome, deeperThan?_eraseSpans, hrest, Cursor.token_eraseSpans]
    cases c.rest.isEmpty <;> cases e.deeperThan? maxHeight <;>
      simp [Parsed.eraseSpans, Finding.eraseSpan, Token.eraseSpan, span_eraseSpans]

end Expr

end ExprLang
