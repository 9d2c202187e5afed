import ExprLang.Proofs.Parsing.Reads

/-!
What a parser takes. When it succeeds it has read some tokens from the front of those that were
there; each is a part of what it gives or has another use. One rule for each piece of a parser says
which tokens it takes.
-/
namespace ExprLang

variable {α δ : Type}

/-- What a token is for in an expression. -/
inductive Role where
  -- It shows in the tree.
  | part
  -- A parenthesis around an expression.
  | grouping
  -- A comma behind the last item of a list.
  | trailing
  -- A parenthesis around the only parameter of a lambda.
  | parameter
deriving DecidableEq, Repr

/-- A token and what it is for. -/
structure Sign where
  token : Token
  role : Role

namespace Sign

def part (kind : TokenKind) (span : Span) : Sign := ⟨⟨kind, span⟩, .part⟩

abbrev symbol (s : Symbol) (span : Span) : Sign := part (.symbol s) span

abbrev keyword (k : Keyword) (span : Span) : Sign := part (.keyword k) span

end Sign

/-- The span begins and ends with the tokens. -/
structure Span.Covers (span : Span) (us : List Sign) : Prop where
  start_eq : us.head?.map (·.token.span.start) = some span.start
  stop_eq : us.getLast?.map (·.token.span.stop) = some span.stop

/-- The tokens between two cursors. -/
structure Cursor.Takes (c : Cursor) (us : List Sign) (d : Cursor) : Prop where
  rest_eq : c.rest = us.map (·.token) ++ d.rest
  last_eq : d.last = (us.getLast?.map (·.token.span)).getD c.last

namespace Cursor

variable {c d e : Cursor} {us vs : List Sign}

theorem Takes.refl (c : Cursor) : c.Takes [] c := ⟨rfl, rfl⟩

theorem Takes.trans (h : c.Takes us d) (h' : d.Takes vs e) : c.Takes (us ++ vs) e := by
  refine ⟨by rw [h.rest_eq, h'.rest_eq, List.map_append, List.append_assoc], ?_⟩
  rw [h'.last_eq, h.last_eq, List.getLast?_append]
  cases vs.getLast? <;> rfl

/-- The uses of the tokens do not matter. -/
theorem Takes.congr (h : c.Takes us d) (heq : us.map (·.token) = vs.map (·.token)) :
    c.Takes vs d := by
  have hlast : ∀ ws : List Sign, ws.getLast?.map (·.token.span) =
      (ws.map (·.token)).getLast?.map (·.span) := fun ws => by
    rw [List.getLast?_map, Option.map_map]
    rfl
  exact ⟨heq ▸ h.rest_eq, by rw [h.last_eq, hlast, heq, ← hlast]⟩

theorem Takes.length_lt_of (h : c.Takes us d) (h' : c.Takes vs e) (hlt : us.length < vs.length) :
    e.rest.length < d.rest.length := by
  have hrest := congrArg List.length (h.rest_eq.symm.trans h'.rest_eq)
  simp only [List.length_append, List.length_map] at hrest
  omega

/-- The span that a node has of the tokens taken for it. -/
theorem Takes.covers (h : c.Takes us d) (hne : us ≠ []) :
    (⟨c.token.span.start, d.last.stop⟩ : Span).Covers us := by
  obtain ⟨u, vs, rfl⟩ := List.exists_cons_of_ne_nil hne
  constructor
  · rw [token, h.rest_eq]
    rfl
  · rw [h.last_eq]
    cases hlast : (u :: vs).getLast? with
    | none => exact absurd (List.getLast?_eq_none_iff.1 hlast) hne
    | some v => rfl

theorem rest_eq_cons (h : c.token.kind ≠ .endOfInput) : c.rest = c.token :: c.rest.drop 1 := by
  unfold token at h ⊢
  cases hrest : c.rest with
  | nil => rw [hrest] at h; exact absurd rfl h
  | cons t ts => rfl

theorem token_eq {kind : TokenKind} (h : c.token.kind = kind) : c.token = ⟨kind, c.token.span⟩ :=
  h ▸ rfl

end Cursor

namespace Parse

/-- If the parser succeeds from a cursor, what it gives and leaves satisfies `Q`. -/
def Ensures (m : Parse α) (Q : α → Cursor → Prop) (c : Cursor) : Prop :=
  ∀ a d, m c = .ok (a, d) → Q a d

/-- The parser takes tokens that have this relation to what it gives. -/
def Makes (S : List Sign → α → Prop) (m : Parse α) : Prop :=
  ∀ c, Ensures m (fun a d => ∃ us, c.Takes us d ∧ S us a) c

namespace Ensures

variable {m : Parse α} {Q : α → Cursor → Prop} {c d : Cursor} {us : List Sign}

theorem pure {a : α} (h : Q a c) : Ensures (Pure.pure a) Q c := by
  rintro _ _ ⟨⟩
  exact h

theorem bind {f : α → Parse δ} {R : δ → Cursor → Prop}
    (h : Ensures m (fun a => Ensures (f a) R) c) : Ensures (m >>= f) R c := by
  intro b e hb
  change (m c >>= fun r => f r.1 r.2) = _ at hb
  rcases hm : m c with _ | ⟨a, d⟩ <;> rw [hm] at hb
  · cases hb
  · exact h a d hm b e hb

theorem mono {R : α → Cursor → Prop} (h : Ensures m Q c) (hQ : ∀ a d, Q a d → R a d) :
    Ensures m R c := fun a d hm => hQ a d (h a d hm)

theorem fail (p : TokenKind → Problem) : Ensures (Parse.fail p) Q c := fun _ _ h => nomatch h

/-- What is only looked at. -/
theorem look {f : Cursor → α} (h : Q (f c) c) : Ensures (fun c => .ok (f c, c)) Q c := by
  rintro _ _ ⟨⟩
  exact h

/-- A parser whose takings are known, after others. -/
theorem take {S : List Sign → α → Prop} (hm : Makes S m) (h : c.Takes us d)
    (hQ : ∀ a e vs, S vs a → c.Takes (us ++ vs) e → Q a e) : Ensures m Q d :=
  (hm d).mono fun a e ⟨vs, hvs, hS⟩ => hQ a e vs hS (h.trans hvs)

theorem advance {Q : Unit → Cursor → Prop} {kind : TokenKind} (hkind : d.token.kind = kind)
    (hne : kind ≠ .endOfInput) (h : c.Takes us d) (role : Role)
    (hQ : ∀ e span, d.token.span = span → c.Takes (us ++ [⟨⟨kind, span⟩, role⟩]) e → Q () e) :
    Ensures Parse.advance Q d := by
  rintro _ _ ⟨⟩
  refine hQ _ d.token.span rfl (h.trans ⟨?_, ?_⟩)
  · exact Cursor.token_eq hkind ▸ Cursor.rest_eq_cons (hkind ▸ hne)
  · rfl

theorem expect {Q : Unit → Cursor → Prop} {kind : TokenKind} (hne : kind ≠ .endOfInput)
    (h : c.Takes us d) (role : Role)
    (hQ : ∀ e span, c.Takes (us ++ [⟨⟨kind, span⟩, role⟩]) e → Q () e) :
    Ensures (Parse.expect kind) Q d :=
  bind <| look <| by
    split
    · exact advance ‹_› hne h role fun e span _ => hQ e span
    · exact fail _

theorem eat {Q : Bool → Cursor → Prop} {kind : TokenKind} (hne : kind ≠ .endOfInput)
    (h : c.Takes us d) (role : Role)
    (htrue : ∀ e span, c.Takes (us ++ [⟨⟨kind, span⟩, role⟩]) e → Q true e)
    (hfalse : d.token.kind ≠ kind → Q false d) : Ensures (Parse.eat kind) Q d :=
  bind <| look <| by
    split
    · exact bind <| advance ‹_› hne h role fun e span _ he => pure (htrue e span he)
    · exact pure (hfalse ‹_›)

theorem spanFrom {Q : Span → Cursor → Prop} {start : Span} (hstart : c.token.span = start)
    (h : c.Takes us d) (hne : us ≠ []) (hQ : ∀ span : Span, span.Covers us → Q span d) :
    Ensures (Parse.spanFrom start) Q d := look (hQ _ (hstart ▸ h.covers hne))

/-- Repeats a step as long as it keeps `I` and takes something. -/
theorem loop {step : α → Parse (Progress α)} {I : α → Cursor → Prop} {a : α} (ha : I a c)
    (h : ∀ a c, I a c → Ensures (step a) (fun r d =>
      r.Either (fun b => I b d ∧ d.rest.length < c.rest.length) fun b => Q b d) c) :
    Ensures (Parse.loop a step) Q c := by
  -- The rounds are one more than the tokens, and each but the last takes one.
  have hiterate : ∀ n a c, I a c → c.rest.length < n → Ensures (iterate step n a) Q c := by
    intro n
    induction n with
    | zero => exact fun _ _ _ hlt => absurd hlt (Nat.not_lt_zero _)
    | succ n ih =>
      intro a c ha hlt
      refine bind ((h a c ha).mono fun r d hr => ?_)
      cases r with
      | more b => exact ih b d hr.1 (by have := hr.2; omega)
      | done b => exact pure hr
  exact hiterate _ a c ha (Nat.lt_succ_self _)

end Ensures

end Parse

end ExprLang
