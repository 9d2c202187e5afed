import ExprLang.Expr.Walker
import ExprLang.Proofs.Parsing.Takes

/-!
The parser with one cursor for the whole way against the parser of trees, which is given the tokens
still to be read. What a walk keeps on its way is said once, and one rule for each piece of a parser
says that the two stay together.
-/
namespace ExprLang

variable {α β : Type}

/-- Deep as before, and with an error if there is no result. -/
structure Return.Kept (r : Return) : Prop where
  depth_eq : r.depthAfter = r.depthBefore
  errors_lt : r.hasResult = false → r.errorsBefore < r.errorsAfter

namespace Walker

/-- Where the first end of input stands. -/
def endPosition (w : Walker) : Nat := w.tokens.findIdx fun t => t.kind = .endOfInput

/-- No place lies past the first end of input or is too deep, and every function kept the depth. -/
structure Sound (w : Walker) : Prop where
  within : ∀ v ∈ (w.position, w.depth) :: w.visited, v.1 ≤ w.endPosition ∧ v.2 ≤ maxNesting
  returned : ∀ r ∈ w.returns, r.Kept

/-- What a function of the parser keeps, with or without a result. -/
structure Steps (w w' : Walker) : Prop where
  tokens_eq : w'.tokens = w.tokens
  depth_eq : w'.depth = w.depth
  sound : w.Sound → w'.Sound

/-- The tokens from the place on are those the cursor has before it. -/
def Views (w : Walker) (c : Cursor) : Prop :=
  ∃ before after, w.tokens = before ++ (c.rest ++ ⟨.endOfInput, c.stop⟩ :: after) ∧
    before.length = w.position ∧ (∀ t ∈ before ++ c.rest, t.kind ≠ .endOfInput) ∧
    c.last = (before.getLast?.map (·.span)).getD (.point .start)

variable {w w' : Walker} {c : Cursor}

namespace Sound

theorem visit {position depth : Nat} (h : w.Sound) (hposition : position ≤ w.endPosition)
    (hdepth : depth ≤ maxNesting) : (w.visit position depth).Sound where
  within := by
    intro v hv
    obtain rfl | hv := List.mem_cons.1 hv
    · exact ⟨hposition, hdepth⟩
    · obtain rfl | hv := List.mem_cons.1 hv
      · exact ⟨hposition, hdepth⟩
      · exact h.within v (List.mem_cons_of_mem _ hv)
  returned := h.returned

theorem logReturn {r : Return} (h : w.Sound) (hr : r.Kept) : (w.logReturn r).Sound where
  within := h.within
  returned := List.forall_mem_cons.2 ⟨hr, h.returned⟩

end Sound

namespace Steps

theorem refl (w : Walker) : w.Steps w := ⟨rfl, rfl, id⟩

theorem trans {w'' : Walker} (h : w.Steps w') (h' : w'.Steps w'') : w.Steps w'' :=
  ⟨h'.tokens_eq.trans h.tokens_eq, h'.depth_eq.trans h.depth_eq, h'.sound ∘ h.sound⟩

theorem report (w : Walker) (f : Finding) : w.Steps (w.report f) :=
  ⟨rfl, rfl, fun h => ⟨h.within, h.returned⟩⟩

theorem logReturn {r : Return} (h : w.Steps w') (hr : r.Kept) : w.Steps (w'.logReturn r) :=
  ⟨h.tokens_eq, h.depth_eq, fun hs => (h.sound hs).logReturn hr⟩

/-- One level deeper and back. -/
theorem nested (hlt : w.depth < maxNesting)
    (h : (w.visit w.position (w.depth + 1)).Steps w') :
    w.Steps (w'.visit w'.position (w'.depth - 1)) := by
  have hdepth : w'.depth - 1 = w.depth := by
    rw [h.depth_eq]
    rfl
  refine ⟨h.tokens_eq, hdepth, fun hs => ?_⟩
  have hplace := hs.within _ List.mem_cons_self
  have hs' := h.sound (hs.visit hplace.1 hlt)
  exact hs'.visit (hs'.within _ List.mem_cons_self).1 (hdepth ▸ hplace.2)

theorem endPosition_eq (h : w.Steps w') : w'.endPosition = w.endPosition := by
  rw [endPosition, endPosition, h.tokens_eq]

end Steps

namespace Views

theorem token?_eq (h : w.Views c) : w.token? = some c.token := by
  obtain ⟨before, after, htokens, hlength, -, -⟩ := h
  have hlt : w.position < w.tokens.length := by
    rw [htokens, ← hlength]
    simp only [List.length_append, List.length_cons]
    omega
  rw [token?, Nat.min_eq_left (by omega), htokens, ← hlength,
    List.getElem?_append_right (Nat.le_refl _), Nat.sub_self, Cursor.token]
  cases c.rest <;> rfl

/-- Up to the end of input the walker looks at what the cursor has before it. -/
theorem lookAhead_eq {n : Nat} (h : w.Views c) (hn : n ≤ c.rest.length) :
    w.lookAhead n = ((c.rest.drop n).map (·.kind)).head?.getD .endOfInput := by
  obtain ⟨before, after, htokens, hlength, -, -⟩ := h
  rw [lookAhead, htokens, ← hlength, List.getElem?_append_right (Nat.le_add_right _ _),
    Nat.add_sub_cancel_left, List.head?_map, List.head?_drop]
  obtain hlt | rfl := Nat.lt_or_eq_of_le hn
  · rw [List.getElem?_append_left hlt]
  · rw [List.getElem?_append_right (Nat.le_refl _), Nat.sub_self,
      List.getElem?_eq_none (Nat.le_refl _)]
    rfl

theorem endPosition_eq (h : w.Views c) : w.endPosition = w.position + c.rest.length := by
  obtain ⟨before, after, htokens, hlength, hkind, -⟩ := h
  rw [endPosition, htokens, ← List.append_assoc, List.findIdx_append, ← hlength,
    List.findIdx_eq_length_of_false (by simpa using hkind), List.length_append,
    if_neg (Nat.lt_irrefl _), List.findIdx_cons]
  simp

/-- Behind the first token the span of the one before is that of the last token read. -/
theorem previous?_eq (h : w.Views c) (hpos : 0 < w.position) :
    w.previous?.map (·.span) = some c.last := by
  obtain ⟨before, after, htokens, hlength, -, hlast⟩ := h
  obtain ⟨i, hi⟩ := Nat.exists_eq_add_one_of_ne_zero (Nat.ne_of_gt hpos)
  have hget : w.tokens[i]? = before.getLast? := by
    rw [htokens, List.getElem?_append_left (by omega), List.getLast?_eq_getElem?, hlength, hi,
      Nat.add_sub_cancel]
  have hsome : before.getLast?.isSome := by
    rw [List.getLast?_isSome]
    rintro rfl
    rw [← hlength] at hpos
    exact Nat.lt_irrefl _ hpos
  obtain ⟨t, ht⟩ := Option.isSome_iff_exists.1 hsome
  rw [previous?, hi]
  simp only [hget, ht, Option.some_or, Option.map_some, hlast, Option.getD_some]

theorem advance (h : w.Views c) (hkind : c.token.kind ≠ .endOfInput) (depth : Nat) :
    (w.visit (w.position + 1) depth).Views
      { c with rest := c.rest.drop 1, last := c.token.span } := by
  obtain ⟨before, after, htokens, hlength, hkinds, -⟩ := h
  rw [Cursor.rest_eq_cons hkind] at htokens hkinds
  refine ⟨before ++ [c.token], after, ?_, ?_, ?_, ?_⟩
  · simpa [visit] using htokens
  · simp [visit, hlength]
  · simpa using hkinds
  · simp

end Views

end Walker

namespace Walk

open Walker

theorem from?_bind (m : Walk α) (F : α → Walk β) (w : Walker) :
    (m >>= F).from? w =
      (m.from? w).bind fun r => r.1.elim (some (none, r.2)) fun a => (F a).from? r.2 := by
  change ((m.from? w).bind fun r => _) = _
  cases m.from? w with
  | none => rfl
  | some r =>
    obtain ⟨a, w'⟩ := r
    cases a <;> rfl

/-- The walker stands before the cursor's tokens, at a depth and not before a place. -/
structure Stands (depth place : Nat) (w : Walker) (c : Cursor) : Prop where
  views : w.Views c
  depth_eq : w.depth = depth
  place_le : place ≤ w.position

namespace Stands

variable {depth place : Nat} {w w' : Walker} {c : Cursor}

theorem here (h : Stands depth place w c) : Stands depth w.position w c :=
  ⟨h.views, h.depth_eq, Nat.le_refl _⟩

theorem mono {place' : Nat} (h : Stands depth place w c) (hle : place' ≤ place) :
    Stands depth place' w c := ⟨h.views, h.depth_eq, Nat.le_trans hle h.place_le⟩

theorem logReturn (h : Stands depth place w c) (r : Return) :
    Stands depth place (w.logReturn r) c := ⟨h.views, h.depth_eq, h.place_le⟩

theorem deeper (h : Stands depth place w c) :
    Stands (depth + 1) place (w.visit w.position (w.depth + 1)) c :=
  ⟨h.views, congrArg (· + 1) h.depth_eq, h.place_le⟩

end Stands

/-- From a walker and a cursor both functions give the same and keep together, or both give
nothing, and the walker has one more error. -/
inductive Tracks (m : Walk α) (m' : Parse α) (Q : α → Walker → Cursor → Prop) (w : Walker)
    (c : Cursor) : Prop
  | gives (a : α) (w' : Walker) (c' : Cursor) (walks : m.from? w = some (some a, w'))
    (reads : m' c = .ok (a, c')) (steps : w.Steps w') (errors_eq : w'.errors = w.errors)
    (holds : Q a w' c')
  | fails (f : Finding) (w' : Walker) (walks : m.from? w = some (none, w'))
    (reads : m' c = .error f) (steps : w.Steps w') (errors_eq : w'.errors = w.errors ++ [f])

/-- At this depth the two functions keep together, and if they succeed they have read a token. -/
def Walks (depth : Nat) (m : Walk α) (m' : Parse α) : Prop :=
  ∀ place w c, Stands depth place w c →
    Tracks m m' (fun _ => Stands depth (place + 1)) w c

namespace Tracks

variable {depth place : Nat} {w : Walker} {c : Cursor} {m : Walk α} {m' : Parse α}
  {Q : α → Walker → Cursor → Prop} {R : β → Walker → Cursor → Prop} {F : α → Walk β}
  {G : α → Parse β}

theorem pure {a : α} (h : Q a w c) : Tracks (Pure.pure a) (Pure.pure a) Q w c :=
  .gives a w c rfl rfl (.refl w) rfl h

theorem bind (h : Tracks m m' (fun a => Tracks (F a) (G a) R) w c) :
    Tracks (m >>= F) (m' >>= G) R w c := by
  have hread : (m' >>= G) c = (m' c >>= fun r => G r.1 r.2) := rfl
  cases h with
  | gives a w' c' walks reads steps errors_eq holds =>
    rw [reads] at hread
    cases holds with
    | gives b w'' c'' walks' reads' steps' errors_eq' holds =>
      refine .gives b w'' c'' ?_ (hread.trans reads') (steps.trans steps')
        (errors_eq'.trans errors_eq) holds
      rw [from?_bind, walks]
      exact walks'
    | fails f w'' walks' reads' steps' errors_eq' =>
      refine .fails f w'' ?_ (hread.trans reads') (steps.trans steps') (errors_eq ▸ errors_eq')
      rw [from?_bind, walks]
      exact walks'
  | fails f w' walks reads steps errors_eq =>
    rw [reads] at hread
    refine .fails f w' ?_ hread steps errors_eq
    rw [from?_bind, walks]
    rfl

theorem mono {P : α → Walker → Cursor → Prop} (h : Tracks m m' P w c)
    (hQ : ∀ a w' c', w.Steps w' → P a w' c' → Q a w' c') : Tracks m m' Q w c := by
  cases h with
  | gives a w' c' walks reads steps errors_eq holds =>
    exact .gives a w' c' walks reads steps errors_eq (hQ a w' c' steps holds)
  | fails f w' walks reads steps errors_eq => exact .fails f w' walks reads steps errors_eq

theorem congr {n : Walk α} {n' : Parse α} (h : Tracks m m' Q w c)
    (hwalk : n.from? w = m.from? w) (hread : n' c = m' c) : Tracks n n' Q w c := by
  cases h with
  | gives a w' c' walks reads steps errors_eq holds =>
    exact .gives a w' c' (hwalk.trans walks) (hread.trans reads) steps errors_eq holds
  | fails f w' walks reads steps errors_eq =>
    exact .fails f w' (hwalk.trans walks) (hread.trans reads) steps errors_eq

/-- A function that is known to keep together, on the way. -/
theorem take (hm : Walks depth m m') (hs : Stands depth place w c)
    (hQ : ∀ {w' c'} a, Stands depth (place + 1) w' c' → Q a w' c') : Tracks m m' Q w c :=
  (hm place w c hs).mono fun a _ _ _ => hQ a

theorem ite {p q : Prop} [Decidable p] [Decidable q] {n : Walk α} {n' : Parse α} (hpq : p ↔ q)
    (hthen : p → Tracks m m' Q w c) (helse : ¬p → Tracks n n' Q w c) :
    Tracks (if p then m else n) (if q then m' else n') Q w c := by
  by_cases hp : p
  · rw [if_pos hp, if_pos (hpq.1 hp)]
    exact hthen hp
  · rw [if_neg hp, if_neg (mt hpq.2 hp)]
    exact helse hp

/-- What is only looked at by the walker. -/
theorem look {f : Walker → Option α} {a : α} {n : Parse β} (hf : f w = some a)
    (h : Tracks (F a) n R w c) : Tracks (Walk.look f >>= F) n R w c := by
  refine h.congr ?_ rfl
  have hlook : (Walk.look f).from? w = some (some a, w) := congrArg (Option.map _) hf
  rw [from?_bind, hlook]
  rfl

theorem looks {f : Walker → Option α} {g : Cursor → α} (hf : f w = some (g c)) (h : Q (g c) w c) :
    Tracks (Walk.look f) (fun c => .ok (g c, c)) Q w c :=
  .gives (g c) w c (congrArg (Option.map _) hf) rfl (.refl w) rfl h

theorem peek {Q : Token → Walker → Cursor → Prop} (hs : Stands depth place w c)
    (h : ∀ kind span, c.token.kind = kind → c.token.span = span → Q ⟨kind, span⟩ w c) :
    Tracks Walk.peek Parse.peek Q w c := looks hs.views.token?_eq (h _ _ rfl rfl)

theorem peekKind {Q : TokenKind → Walker → Cursor → Prop} (hs : Stands depth place w c)
    (h : ∀ kind, c.token.kind = kind → Q kind w c) : Tracks Walk.peekKind Parse.peekKind Q w c :=
  looks (congrArg (Option.map _) hs.views.token?_eq) (h _ rfl)

theorem peekSpan {Q : Span → Walker → Cursor → Prop} (hs : Stands depth place w c)
    (h : Q c.token.span w c) : Tracks Walk.peekSpan Parse.peekSpan Q w c :=
  looks (congrArg (Option.map _) hs.views.token?_eq) h

theorem lookSpan {F : Span → Walk β} {n : Parse β} (hs : Stands depth place w c)
    (h : Tracks (F c.token.span) n R w c) : Tracks (Walk.peekSpan >>= F) n R w c :=
  look (congrArg (Option.map _) hs.views.token?_eq) h

theorem lookAhead {n : Nat} {test : List TokenKind → Bool} {F : TokenKind → Walk β}
    {G : Bool → Parse β}
    (h : Tracks (F (w.lookAhead n)) (G (test ((c.rest.drop 1).map (·.kind)))) R w c) :
    Tracks (Walk.lookAhead n >>= F) (Parse.ahead test >>= G) R w c := look rfl (h.congr rfl rfl)

theorem spanFrom {Q : Span → Walker → Cursor → Prop} {start : Span}
    (hs : Stands depth (place + 1) w c) (h : ∀ span, Q span w c) :
    Tracks (Walk.spanFrom start) (Parse.spanFrom start) Q w c := by
  have hpos : 0 < w.position := Nat.lt_of_lt_of_le place.succ_pos hs.place_le
  obtain ⟨t, ht, hlast⟩ := Option.map_eq_some_iff.1 (hs.views.previous?_eq hpos)
  exact looks (by rw [ht, ← hlast]; rfl) (h _)

theorem advance {Q : Unit → Walker → Cursor → Prop} {kind : TokenKind}
    (hs : Stands depth place w c) (hkind : c.token.kind = kind) (hne : kind ≠ .endOfInput)
    (hQ : ∀ {w' c'}, Stands depth (place + 1) w' c' → Q () w' c') :
    Tracks Walk.advance Parse.advance Q w c := by
  replace hkind : c.token.kind ≠ .endOfInput := hkind ▸ hne
  have hend : w.position + 1 ≤ w.endPosition := by
    rw [hs.views.endPosition_eq, Cursor.rest_eq_cons hkind, List.length_cons]
    omega
  have hlt : w.position < w.tokens.length := Nat.lt_of_lt_of_le hend List.findIdx_le_length
  refine .gives () (w.visit (w.position + 1) w.depth) _ ?_ rfl ⟨rfl, rfl, fun h => ?_⟩ rfl
    (hQ ⟨hs.views.advance hkind _, hs.depth_eq, Nat.succ_le_succ hs.place_le⟩)
  · change some (some (), if _ then _ else _) = _
    rw [if_pos hlt]
  · exact h.visit hend (h.within _ List.mem_cons_self).2

theorem fail {p : TokenKind → Problem} (hs : Stands depth place w c) :
    Tracks (Walk.fail p) (Parse.fail p) Q w c :=
  .fails _ (w.report _) (congrArg (Option.map _) hs.views.token?_eq) rfl (.report w _) rfl

theorem eat {Q : Bool → Walker → Cursor → Prop} {kind : TokenKind} (hne : kind ≠ .endOfInput)
    (hs : Stands depth place w c) (htrue : ∀ {w' c'}, Stands depth (place + 1) w' c' → Q true w' c')
    (hfalse : Q false w c) : Tracks (Walk.eat kind) (Parse.eat kind) Q w c :=
  .bind <| .peekKind hs fun _ hkind => .ite Iff.rfl
    (fun heq => .bind <| .advance hs (hkind.trans heq) hne fun hs => .pure (htrue hs))
    fun _ => .pure hfalse

theorem function (h : Tracks m m' (fun _ => Stands depth place) w c) :
    Tracks (Walk.function m) m' (fun _ => Stands depth place) w c := by
  cases h with
  | gives a w' c' walks reads steps errors_eq holds =>
    refine .gives a (w'.logReturn _) c' (congrArg (Option.map _) walks) reads
      (steps.logReturn ⟨steps.depth_eq, nofun⟩) errors_eq (holds.logReturn _)
  | fails f w' walks reads steps errors_eq =>
    refine .fails f (w'.logReturn _) (congrArg (Option.map _) walks) reads
      (steps.logReturn ⟨steps.depth_eq, fun _ => ?_⟩) errors_eq
    simp [errors_eq]

/-- Repeats a step as long as it reads something. -/
theorem loop {step : α → Walk (Parse.Progress α)} {step' : α → Parse (Parse.Progress α)} {a : α}
    (hs : Stands depth place w c)
    (h : ∀ {place w c} a, Stands depth place w c → Tracks (step a) (step' a) (fun r w' c' =>
      r.Either (fun _ => Stands depth (place + 1) w' c') fun _ => Stands depth place w' c') w c)
    (hQ : ∀ {w' c'} a, Stands depth place w' c' → Q a w' c') :
    Tracks (Walk.loop a step) (Parse.loop a step') Q w c := by
  -- On both sides there is a round for each token and one more, and each but the last reads one.
  have hiterate : ∀ n k a {w c}, Stands depth place w c → c.rest.length < n → c.rest.length < k →
      Tracks (Walk.iterate step n a) (Parse.iterate step' k a) Q w c := by
    intro n
    induction n with
    | zero => exact fun _ _ _ _ _ hlt => absurd hlt (Nat.not_lt_zero _)
    | succ n ih =>
      intro k a w c hs hlt hlt'
      obtain ⟨k, rfl⟩ := Nat.exists_eq_add_one_of_ne_zero (Nat.ne_of_gt (Nat.zero_lt_of_lt hlt'))
      refine .bind <| (h a hs.here).mono fun r w' c' hsteps hr => ?_
      cases r with
      | more b =>
        have hplace := hr.place_le
        have hend := hsteps.endPosition_eq
        rw [hr.views.endPosition_eq, hs.views.endPosition_eq] at hend
        exact ih k b (hr.mono (Nat.le_succ_of_le hs.place_le)) (by omega) (by omega)
      | done b => exact .pure (hQ b (hr.mono hs.place_le))
  have hlength : c.rest.length ≤ w.tokens.length := by
    have hend : w.endPosition ≤ w.tokens.length := List.findIdx_le_length
    rw [hs.views.endPosition_eq] at hend
    omega
  exact (hiterate _ _ a hs (Nat.lt_succ_of_le hlength) (Nat.lt_succ_self _)).congr rfl rfl

end Tracks

namespace Walks

variable {depth : Nat} {m : Walk α} {m' : Parse α}

theorem function (h : Walks depth m m') : Walks depth (Walk.function m) m' := fun place w c hs =>
  (h place w c hs).function

theorem expect {kind : TokenKind} (hne : kind ≠ .endOfInput) :
    Walks depth (Walk.expect kind) (Parse.expect kind) :=
  function fun _ _ _ hs => .bind <| .peekKind hs fun _ hkind => .ite Iff.rfl
    (fun heq => .advance hs (hkind.trans heq) hne id) fun _ => .fail hs

theorem expectIdentifier : Walks depth Walk.expectIdentifier Parse.expectIdentifier := by
  refine function fun _ _ _ hs => .bind <| .peek hs fun kind span hkind _ => ?_
  cases kind with
  | identifier name => exact .bind <| .advance hs hkind TokenKind.noConfusion fun hs => .pure hs
  | _ => exact .fail hs

theorem expectPropertyName : Walks depth Walk.expectPropertyName Parse.expectPropertyName := by
  refine function fun _ _ _ hs => .bind <| .peek hs fun kind span hkind _ => ?_
  cases kind with
  | identifier name => exact .bind <| .advance hs hkind TokenKind.noConfusion fun hs => .pure hs
  | keyword k => exact .bind <| .advance hs hkind TokenKind.noConfusion fun hs => .pure hs
  | _ => exact .fail hs

theorem nested (hlt : depth < maxNesting) (h : Walks (depth + 1) m m') :
    Walks depth (Walk.nested m) m' := by
  refine function fun place w c hs => ?_
  have hroom : w.depth < maxNesting := hs.depth_eq ▸ hlt
  cases h place _ c hs.deeper with
  | gives a w' c' walks reads steps errors_eq holds =>
    have hsteps := steps.nested hroom
    have hdepth := hsteps.depth_eq.trans hs.depth_eq
    refine .gives a _ c' ?_ reads hsteps errors_eq ⟨holds.views, hdepth, holds.place_le⟩
    change (if _ then _ else _) = _
    rw [if_neg (Nat.not_le_of_lt hroom), walks]
    rfl
  | fails f w' walks reads steps errors_eq =>
    refine .fails f _ ?_ reads (steps.nested hroom) errors_eq
    change (if _ then _ else _) = _
    rw [if_neg (Nat.not_le_of_lt hroom), walks]
    rfl

/-- At the limit it is refused. -/
theorem refused : Walks maxNesting (Walk.nested m) (Parse.fail fun _ => .nestingTooDeep) := by
  refine function fun place w c hs => ?_
  exact (Tracks.fail hs).congr (if_pos (Nat.le_of_eq hs.depth_eq.symm)) rfl

end Walks

end Walk

end ExprLang
