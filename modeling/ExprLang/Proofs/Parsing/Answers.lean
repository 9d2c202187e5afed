import ExprLang.Proofs.Parsing.Walks

/-!
What a function of the walking parser answers from the kinds of tokens that lie ahead: it gives
something without an error, or nothing with one. One rule for each piece of a parser says which, at
any place of any tokens.
-/
namespace ExprLang

open TokenKind (front)

variable {α β : Type}

namespace Walker

/-- The kinds from the place on. -/
def ahead (w : Walker) : List TokenKind := (w.tokens.drop w.position).map (·.kind)

/-- These kinds lie ahead, of tokens that end with an end of input. -/
structure Faces (w : Walker) (ks : List TokenKind) : Prop where
  ended : w.tokens.getLast?.map (·.kind) = some .endOfInput
  ahead_eq : w.ahead = ks

variable {w : Walker} {k : TokenKind} {ks : List TokenKind}

theorem lookAhead_eq_ahead (w : Walker) (n : Nat) :
    w.lookAhead n = w.ahead[n]?.getD .endOfInput := by
  rw [lookAhead, ahead, List.getElem?_map, List.getElem?_drop]

/-- What is looked at behind the first token ahead. -/
theorem sees_of_ahead (h : w.ahead = k :: ks) : w.Sees 1 ks := fun i _ => by
  rw [lookAhead_eq_ahead, h, Nat.add_comm, List.getElem?_cons_succ]

theorem ended_ofTokens (ts : List Token) :
    (ofTokens ts).tokens.getLast?.map (·.kind) = some .endOfInput := by
  cases hlast : ts.getLast? with
  | none => simp [ofTokens, hlast]
  | some t =>
    by_cases ht : t.kind = .endOfInput
    · simp [ofTokens, hlast, ht]
    · simp [ofTokens, hlast, ht]

namespace Faces

theorem logReturn (h : w.Faces ks) (r : Return) : (w.logReturn r).Faces ks := ⟨h.ended, h.ahead_eq⟩

theorem length_le (h : w.Faces ks) : ks.length ≤ w.tokens.length := by
  rw [← h.ahead_eq, ahead, List.length_map, List.length_drop]
  exact Nat.sub_le _ _

/-- Behind the last token there is the end of input, and so there is at the last. -/
theorem token?_eq (h : w.Faces ks) : w.token?.map (·.kind) = some (front ks) := by
  obtain ⟨hended, rfl⟩ := h
  by_cases hlt : w.position < w.tokens.length
  · rw [token?, Nat.min_eq_left (by omega), front, ahead, List.head?_map, List.head?_drop,
      List.getElem?_eq_getElem hlt]
    rfl
  · have hahead : w.ahead = [] := by
      rw [ahead, List.drop_eq_nil_of_le (by omega), List.map_nil]
    rw [token?, Nat.min_eq_right (by omega), ← List.getLast?_eq_getElem?, hended, hahead]
    rfl

theorem advance (h : w.Faces (k :: ks)) : (w.visit (w.position + 1) w.depth).Faces ks where
  ended := h.ended
  ahead_eq := by
    have htail := congrArg List.tail h.ahead_eq
    rwa [ahead, ← List.map_tail, List.tail_drop] at htail

theorem position_lt (h : w.Faces (k :: ks)) : w.position < w.tokens.length := by
  have hlength := congrArg List.length h.ahead_eq
  rw [ahead, List.length_map, List.length_drop, List.length_cons] at hlength
  omega

end Faces

end Walker

namespace Walk

open Walker (Faces)

/-- From a walker the function gives something and has found no error, or it gives nothing and has
found one, and then `R` holds. -/
inductive Answers (m : Walk α) (Q : α → Walker → Prop) (R : Prop) (w : Walker) : Prop
  | gives (a : α) (w' : Walker) (walks : m.from? w = some (some a, w'))
    (errors_eq : w'.errors = w.errors) (holds : Q a w')
  | fails (f : Finding) (w' : Walker) (walks : m.from? w = some (none, w'))
    (errors_eq : w'.errors = w.errors ++ [f]) (refused : R)

namespace Answers

variable {m : Walk α} {Q : α → Walker → Prop} {R : Prop} {w : Walker} {k : TokenKind}
  {ks : List TokenKind}

theorem pure {a : α} (h : Q a w) : Answers (Pure.pure a) Q R w := .gives a w rfl rfl h

theorem bind {f : α → Walk β} {P : β → Walker → Prop}
    (h : Answers m (fun a => Answers (f a) P R) R w) : Answers (m >>= f) P R w := by
  cases h with
  | gives a w' walks errors_eq holds =>
    cases holds with
    | gives b w'' walks' errors_eq' holds =>
      refine .gives b w'' ?_ (errors_eq'.trans errors_eq) holds
      rw [from?_bind, walks]
      exact walks'
    | fails e w'' walks' errors_eq' refused =>
      refine .fails e w'' ?_ (errors_eq ▸ errors_eq') refused
      rw [from?_bind, walks]
      exact walks'
  | fails e w' walks errors_eq refused =>
    refine .fails e w' ?_ errors_eq refused
    rw [from?_bind, walks]
    rfl

theorem mono {P : α → Walker → Prop} (h : Answers m Q R w) (hQ : ∀ a w', Q a w' → P a w') :
    Answers m P R w := by
  cases h with
  | gives a w' walks errors_eq holds => exact .gives a w' walks errors_eq (hQ a w' holds)
  | fails f w' walks errors_eq refused => exact .fails f w' walks errors_eq refused

theorem congr {n : Walk α} (h : Answers m Q R w) (hwalk : n.from? w = m.from? w) :
    Answers n Q R w := by
  cases h with
  | gives a w' walks errors_eq holds => exact .gives a w' (hwalk.trans walks) errors_eq holds
  | fails f w' walks errors_eq refused => exact .fails f w' (hwalk.trans walks) errors_eq refused

theorem function (h : Answers m (fun a w' => ∀ r, Q a (w'.logReturn r)) R w) :
    Answers (Walk.function m) Q R w := by
  cases h with
  | gives a w' walks errors_eq holds =>
    exact .gives a (w'.logReturn _) (congrArg (Option.map _) walks) errors_eq (holds _)
  | fails f w' walks errors_eq refused =>
    exact .fails f (w'.logReturn _) (congrArg (Option.map _) walks) errors_eq refused

theorem peek {Q : Token → Walker → Prop} (hw : w.Faces ks) (h : ∀ span, Q ⟨front ks, span⟩ w) :
    Answers Walk.peek Q R w := by
  obtain ⟨t, ht, hkind⟩ := Option.map_eq_some_iff.1 hw.token?_eq
  refine .gives t w (congrArg (Option.map _) ht) rfl ?_
  have htoken := h t.span
  rwa [← hkind] at htoken

theorem peekKind {Q : TokenKind → Walker → Prop} (hw : w.Faces ks) (h : Q (front ks) w) :
    Answers Walk.peekKind Q R w :=
  .gives _ w (congrArg (Option.map _) hw.token?_eq) rfl h

theorem fail {p : TokenKind → Problem} (hw : w.Faces ks) (h : R) : Answers (Walk.fail p) Q R w := by
  obtain ⟨t, ht, -⟩ := Option.map_eq_some_iff.1 hw.token?_eq
  exact .fails _ (w.report _) (congrArg (Option.map _) ht) rfl h

theorem advance {Q : Unit → Walker → Prop} (hw : w.Faces (k :: ks))
    (h : ∀ w', w'.Faces ks → Q () w') : Answers Walk.advance Q R w := by
  refine .gives () (w.visit (w.position + 1) w.depth) ?_ rfl (h _ hw.advance)
  change some (some (), if _ then _ else _) = _
  rw [if_pos hw.position_lt]

theorem eat {Q : Bool → Walker → Prop} (hk : k ≠ .endOfInput) (hw : w.Faces ks)
    (htrue : ∀ ks' w', ks = k :: ks' → w'.Faces ks' → Q true w')
    (hfalse : front ks ≠ k → Q false w) : Answers (Walk.eat k) Q R w := by
  refine .bind <| .peekKind hw ?_
  by_cases hfront : front ks = k
  · obtain ⟨ks', rfl⟩ := TokenKind.exists_cons_of_front hfront hk
    rw [if_pos hfront]
    exact .bind <| .advance hw fun w' hw' => .pure (htrue ks' w' rfl hw')
  · rw [if_neg hfront]
    exact .pure (hfalse hfront)

theorem expect {Q : Unit → Walker → Prop} (hk : k ≠ .endOfInput) (hw : w.Faces ks)
    (h : ∀ ks' w', ks = k :: ks' → w'.Faces ks' → Q () w') (hR : front ks ≠ k → R) :
    Answers (Walk.expect k) Q R w := by
  refine .function <| .bind <| .peekKind hw ?_
  by_cases hfront : front ks = k
  · obtain ⟨ks', rfl⟩ := TokenKind.exists_cons_of_front hfront hk
    rw [if_pos hfront]
    exact .advance hw fun w' hw' r => h ks' _ rfl (hw'.logReturn r)
  · rw [if_neg hfront]
    exact .fail hw (hR hfront)

theorem expectIdentifier {Q : Name → Walker → Prop} (hw : w.Faces ks)
    (h : ∀ name span ks' w', ks = .identifier name :: ks' → w'.Faces ks' → Q ⟨name, span⟩ w')
    (hR : (∀ name, front ks ≠ .identifier name) → R) : Answers Walk.expectIdentifier Q R w := by
  refine .function <| .bind <| .peek hw fun span => ?_
  cases hfront : front ks with
  | identifier name =>
    obtain ⟨ks', rfl⟩ := TokenKind.exists_cons_of_front hfront TokenKind.noConfusion
    exact .bind <| .advance hw fun w' hw' => .pure fun r => h name span ks' _ rfl (hw'.logReturn r)
  | _ => exact .fail hw (hR fun name hname => by cases hfront.symm.trans hname)

/-- Repeats a step as long as it keeps `I` and leaves fewer tokens ahead. -/
theorem loop {step : α → Walk (Parse.Progress α)} {I : List TokenKind → Prop} {a : α}
    (hw : w.Faces ks) (hI : I ks)
    (h : ∀ a w ks, w.Faces ks → I ks → Answers (step a) (fun r w' => r.Either
      (fun _ => ∃ ks', w'.Faces ks' ∧ I ks' ∧ ks'.length < ks.length) fun b => Q b w') R w) :
    Answers (Walk.loop a step) Q R w := by
  -- There is a round for each token and one more, and each but the last leaves fewer ahead.
  have hiterate : ∀ n a w ks, w.Faces ks → I ks → ks.length < n →
      Answers (iterate step n a) Q R w := by
    intro n
    induction n with
    | zero => exact fun _ _ _ _ _ hlt => absurd hlt (Nat.not_lt_zero _)
    | succ n ih =>
      intro a w ks hw hI hlt
      refine .bind <| (h a w ks hw hI).mono fun r w' hr => ?_
      cases r with
      | more b =>
        obtain ⟨ks', hw', hI', hless⟩ := hr
        exact ih b w' ks' hw' hI' (by omega)
      | done b => exact .pure hr
  exact (hiterate _ a w ks hw hI (Nat.lt_succ_of_le hw.length_le)).congr rfl

end Answers

end Walk

end ExprLang
