import ExprLang.Expr.Parser
import ExprLang.Expr.Written

/-!
What a parser makes of the kinds of tokens that lie ahead. One rule for each piece of a parser says
which kinds it needs and which it leaves.
-/
namespace ExprLang

variable {α δ : Type}

/-- The kinds of the tokens that lie ahead. -/
def Cursor.Sees (c : Cursor) (ks : List TokenKind) : Prop := c.rest.map (·.kind) = ks

/-- The first kind ahead; past the last token there is the end of input. -/
def TokenKind.front (ks : List TokenKind) : TokenKind := ks.head?.getD .endOfInput

theorem TokenKind.exists_cons_of_front {k : TokenKind} {ks : List TokenKind}
    (h : front ks = k) (hk : k ≠ .endOfInput) : ∃ ks', ks = k :: ks' := by
  cases ks with
  | nil => exact absurd h.symm hk
  | cons k' ks => exact ⟨ks, congrArg (· :: ks) h⟩

namespace Cursor.Sees

open TokenKind (front)

variable {c : Cursor} {k : TokenKind} {ks : List TokenKind}

theorem kind_eq (h : c.Sees ks) : c.token.kind = front ks := by
  subst h
  unfold Cursor.token front
  cases c.rest <;> rfl

theorem drop (h : c.Sees (k :: ks)) : (c.rest.drop 1).map (·.kind) = ks := by
  rw [List.map_drop, h, List.drop_one, List.tail_cons]

theorem length_eq (h : c.Sees ks) : c.rest.length = ks.length := by
  rw [← h, List.length_map]

theorem length_lt {c' : Cursor} {ks' : List TokenKind} (h : c.Sees ks) (h' : c'.Sees ks')
    (hlt : ks'.length < ks.length) : c'.rest.length < c.rest.length := by
  rwa [h.length_eq, h'.length_eq]

end Cursor.Sees

theorem Cursor.sees_ofTokens {ts : List Token} {ks : List TokenKind}
    (h : ts.map (·.kind) = ks ++ [.endOfInput]) (hks : .endOfInput ∉ ks) :
    (Cursor.ofTokens ts).Sees ks := by
  unfold Sees Cursor.ofTokens
  have hmap : (ts.map (·.kind)).takeWhile (fun k => decide (k ≠ .endOfInput)) =
      (ts.takeWhile fun t => t.kind ≠ .endOfInput).map (·.kind) := List.takeWhile_map
  rw [← hmap, h, List.takeWhile_append_of_pos, List.takeWhile_cons_of_neg, List.append_nil]
  · simp
  · exact fun k hk => decide_eq_true fun he => hks (he ▸ hk)

namespace Parse

open TokenKind (front)

/-- The parser succeeds from a cursor, and what it gives and leaves satisfies `Q`. -/
def Reads (m : Parse α) (Q : α → Cursor → Prop) (c : Cursor) : Prop :=
  ∃ a c', m c = .ok (a, c') ∧ Q a c'

/-- A step that goes on satisfies the one, and one that ends the other. -/
def Progress.Either (more done : α → Prop) : Progress α → Prop
  | .more a => more a
  | .done a => done a

namespace Reads

variable {m : Parse α} {Q : α → Cursor → Prop} {c : Cursor} {ks : List TokenKind} {k : TokenKind}

theorem pure {a : α} (h : Q a c) : Reads (Pure.pure a) Q c := ⟨a, c, rfl, h⟩

theorem bind {f : α → Parse δ} {R : δ → Cursor → Prop} (h : Reads m (fun a => Reads (f a) R) c) :
    Reads (m >>= f) R c := by
  obtain ⟨a, d, hm, b, e, hf, hR⟩ := h
  refine ⟨b, e, ?_, hR⟩
  change (m c >>= fun r => f r.1 r.2) = _
  rw [hm]
  exact hf

theorem mono {R : α → Cursor → Prop} (h : Reads m Q c) (hQ : ∀ a c', Q a c' → R a c') :
    Reads m R c := by
  obtain ⟨a, d, hm, hQa⟩ := h
  exact ⟨a, d, hm, hQ a d hQa⟩

/-- What is only looked at, and does not matter. -/
theorem any {f : Cursor → α} (h : ∀ a, Q a c) : Reads (fun c => .ok (f c, c)) Q c :=
  ⟨f c, c, rfl, h _⟩

theorem peekKind {Q : TokenKind → Cursor → Prop} (hc : c.Sees ks) (h : Q (front ks) c) :
    Reads Parse.peekKind Q c :=
  ⟨_, c, rfl, hc.kind_eq ▸ h⟩

theorem peek {Q : Token → Cursor → Prop} (hc : c.Sees ks) (h : ∀ span, Q ⟨front ks, span⟩ c) :
    Reads Parse.peek Q c := by
  refine ⟨c.token, c, rfl, ?_⟩
  have htoken := h c.token.span
  rwa [← hc.kind_eq] at htoken

theorem ahead {Q : Bool → Cursor → Prop} {test : List TokenKind → Bool} (hc : c.Sees (k :: ks))
    (h : Q (test ks) c) : Reads (Parse.ahead test) Q c :=
  ⟨_, c, rfl, hc.drop.symm ▸ h⟩

theorem advance {Q : Unit → Cursor → Prop} (hc : c.Sees (k :: ks))
    (h : ∀ c' : Cursor, c'.Sees ks → Q () c') : Reads Parse.advance Q c :=
  ⟨(), _, rfl, h _ hc.drop⟩

theorem eat_true {Q : Bool → Cursor → Prop} (hc : c.Sees (k :: ks))
    (h : ∀ c' : Cursor, c'.Sees ks → Q true c') : Reads (Parse.eat k) Q c :=
  bind <| peekKind hc <| by
    rw [if_pos (show front (k :: ks) = k from rfl)]
    exact bind (advance hc fun c' hc' => pure (h c' hc'))

theorem eat_false {Q : Bool → Cursor → Prop} (hc : c.Sees ks) (hk : front ks ≠ k) (h : Q false c) :
    Reads (Parse.eat k) Q c :=
  bind <| peekKind hc <| by
    rw [if_neg hk]
    exact pure h

theorem expect {Q : Unit → Cursor → Prop} (hc : c.Sees (k :: ks))
    (h : ∀ c' : Cursor, c'.Sees ks → Q () c') : Reads (Parse.expect k) Q c :=
  bind <| peekKind hc <| by
    rw [if_pos (show front (k :: ks) = k from rfl)]
    exact advance hc h

theorem expectIdentifier {Q : Name → Cursor → Prop} {name : String}
    (hc : c.Sees (.identifier name :: ks))
    (h : ∀ span, ∀ c' : Cursor, c'.Sees ks → Q ⟨name, span⟩ c') :
    Reads Parse.expectIdentifier Q c :=
  bind <| peek hc fun span => bind (advance hc fun c' hc' => pure (h span c' hc'))

/-- Repeats a step as long as it keeps `I` and reads something. -/
theorem loop {step : α → Parse (Progress α)} {I : α → Cursor → Prop} {a : α} (ha : I a c)
    (h : ∀ a c, I a c → Reads (step a) (fun r c' =>
      r.Either (fun b => I b c' ∧ c'.rest.length < c.rest.length) fun b => Q b c') c) :
    Reads (Parse.loop a step) Q c := by
  have hiterate : ∀ n a c, I a c → c.rest.length < n → Reads (iterate step n a) Q c := by
    intro n
    induction n with
    | zero => exact fun _ _ _ hlt => absurd hlt (Nat.not_lt_zero _)
    | succ n ih =>
      intro a c ha hlt
      refine bind ((h a c ha).mono fun r c' hr => ?_)
      cases r with
      | more b => exact ih b c' hr.1 (by have := hr.2; omega)
      | done b => exact pure hr
  exact hiterate _ a c ha (Nat.lt_succ_self _)

/-- A loop whose first step is its last. -/
theorem loop_end {step : α → Parse (Progress α)} {a : α}
    (h : Reads (step a) (fun r c' => r.Either (fun _ => False) fun b => Q b c') c) :
    Reads (Parse.loop a step) Q c := by
  refine .loop (I := fun b c' => b = a ∧ c' = c) ⟨rfl, rfl⟩ ?_
  rintro _ _ ⟨rfl, rfl⟩
  refine h.mono fun r c' hr => ?_
  cases r with
  | more b => exact hr.elim
  | done b => exact hr

/-- A loop of two steps. -/
theorem loop_once {step : α → Parse (Progress α)} {I : α → Cursor → Prop} {a : α}
    (h : Reads (step a) (fun r c' =>
      r.Either (fun b => I b c' ∧ c'.rest.length < c.rest.length) fun _ => False) c)
    (hend : ∀ b c', I b c' →
      Reads (step b) (fun r c'' => r.Either (fun _ => False) fun b' => Q b' c'') c') :
    Reads (Parse.loop a step) Q c := by
  refine .loop (I := fun b c' => b = a ∧ c' = c ∨ I b c') (.inl ⟨rfl, rfl⟩) ?_
  rintro b d (⟨rfl, rfl⟩ | hI)
  · refine h.mono fun r c' hr => ?_
    cases r with
    | more b' => exact ⟨.inr hr.1, hr.2⟩
    | done b' => exact hr.elim
  · refine (hend b d hI).mono fun r c' hr => ?_
    cases r with
    | more b' => exact hr.elim
    | done b' => exact hr

end Reads

end Parse

namespace Expr

section Whole

variable {ts : List Token} {t : Expr} {c : Cursor}

theorem ofTokens_eq_some (h : parser maxNesting (.ofTokens ts) = .ok (t, c)) (hc : c.Sees [])
    (hdeep : t.deeperThan? maxHeight = none) : ofTokens ts = ⟨some t, []⟩ := by
  have hnil : c.rest = [] := List.map_eq_nil_iff.1 hc
  unfold ofTokens
  rw [h]
  simp only [hnil, hdeep, List.isEmpty_nil, if_true]

theorem ofTokens_eq_none (h : parser maxNesting (.ofTokens ts) = .ok (t, c)) (hc : c.Sees [])
    {node : Expr} (hdeep : t.deeperThan? maxHeight = some node) :
    ofTokens ts = ⟨none, [⟨.treeTooHigh, node.span⟩]⟩ := by
  have hnil : c.rest = [] := List.map_eq_nil_iff.1 hc
  unfold ofTokens
  rw [h]
  simp only [hnil, hdeep, List.isEmpty_nil, if_true, List.nil_append]

theorem parse_eq_ok {text : String} (htext : lex text = ⟨ts, []⟩)
    (h : ofTokens ts = ⟨some t, []⟩) : parse text = .ok t := by
  unfold parse
  simp only [htext, h, List.isEmpty_nil, if_true]

end Whole

end Expr

end ExprLang
