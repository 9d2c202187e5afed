import ExprLang.Proofs.Correspondence.Stores
import ExprLang.Proofs.Termination.Growth

/-!
Two runs that meet: if either of them comes to an outcome within its bound, so does the other, and
the outcomes and the stores they leave are alike. There is one rule for each single thing a run
does, one for what only the second run does, and one for sequences.
-/
namespace ExprLang

open Value (Like Answers)

variable {α α' δ δ' : Type} {S : Comparison} {A B A' B' : Prop} {H : Nat → Nat → Prop}
  {w w' : Store Code Nat}

theorem option_rel_map {P : α → α' → Prop} {Q : δ → δ' → Prop} {o : Option α} {o' : Option α'}
    {f : α → δ} {g : α' → δ'} (h : Option.Rel P o o') (k : ∀ a a', P a a' → Q (f a) (g a')) :
    Option.Rel Q (o.map f) (o'.map g) := by
  cases h with
  | none => exact .none
  | some h => exact .some (k _ _ h)

namespace Comparison.StoreLike

theorem noteLeft (h : S.StoreLike H w w') {e : Event} (he : e.hostCall? = none) :
    S.StoreLike H { w with events := e :: w.events } w' where
  references := h.references
  unique := h.unique
  functions := h.functions
  cells := h.cells
  hostCalls hS := by
    have hcalls : ExprLang.hostCalls (e :: w.events) = ExprLang.hostCalls w.events :=
      List.filterMap_cons_none he
    rw [hcalls]
    exact h.hostCalls hS

theorem noteRight (h : S.StoreLike H w w') {e : Event} (he : e.hostCall? = none) :
    S.StoreLike H w { w' with events := e :: w'.events } where
  references := h.references
  unique := h.unique
  functions := h.functions
  cells := h.cells
  hostCalls hS := by
    have hcalls : ExprLang.hostCalls (e :: w'.events) = ExprLang.hostCalls w'.events :=
      List.filterMap_cons_none he
    rw [hcalls]
    exact h.hostCalls hS

theorem noteHost (h : S.StoreLike H w w') {handle handle' : Nat} (hh : H handle handle')
    (name : String) {vs vs' : List Value} (hS : ¬ S.strict)
    (hvs : List.Forall₂ (Like S.references H) vs vs') :
    S.StoreLike H { w with events := .host handle name vs :: w.events }
      { w' with events := .host handle' name vs' :: w'.events } where
  references := h.references
  unique := h.unique
  functions := h.functions
  cells := h.cells
  hostCalls _ := by
    rw [S.references_eq hS] at hvs
    exact .cons (.paired hh hvs) (h.hostCalls hS)

theorem reference (h : S.StoreLike H w w') :
    S.StoreLike H { w with nextReference := w.nextReference + 1 }
      { w' with nextReference := w'.nextReference + 1 } where
  references k := by
    have hk := h.references (1 + k)
    rwa [← Nat.add_assoc, ← Nat.add_assoc] at hk
  unique := h.unique
  functions := h.functions
  cells := h.cells
  hostCalls := h.hostCalls

theorem save (h : S.StoreLike H w w') (cell : Nat) {v v' : Value}
    (hv : Like S.references H v v') : S.StoreLike H (w.save cell v) (w'.save cell v') where
  references := h.references
  unique := h.unique
  functions := h.functions
  cells hS i := by
    unfold Store.save
    simp only
    split
    · exact hv
    · exact h.cells hS i
  hostCalls := h.hostCalls

theorem lt_size (h : S.StoreLike H w w') {i i' : Nat} (hi : H i i') :
    i < w.functions.size ∧ i' < w'.functions.size := by
  obtain ⟨c, c', hc, hc', -⟩ := h.functions hi
  exact ⟨(Array.getElem?_eq_some_iff.1 hc).1, (Array.getElem?_eq_some_iff.1 hc').1⟩

/-- A function that only the second run makes. -/
theorem addRight (h : S.StoreLike H w w') (c : Callable Code Nat) :
    S.StoreLike H w (w'.addFunction c).2 where
  references := h.references
  unique := h.unique
  functions hh := by
    obtain ⟨d, d', hd, hd', hlike⟩ := h.functions hh
    exact ⟨d, d', hd, (w'.grows_addFunction c).functions hd', hlike⟩
  cells := h.cells
  hostCalls := h.hostCalls

end Comparison.StoreLike

/-- The pairing with a pair of functions made in these stores. -/
def paired (H : Nat → Nat → Prop) (w w' : Store Code Nat) : Nat → Nat → Prop :=
  fun h h' => H h h' ∨ h = w.functions.size ∧ h' = w'.functions.size

theorem le_paired (H : Nat → Nat → Prop) (w w' : Store Code Nat) : H ≤ paired H w w' :=
  fun _ _ => .inl

theorem Comparison.StoreLike.unique_paired (h : S.StoreLike H w w') :
    Relator.BiUnique (paired H w w') := by
  constructor
  · rintro i j k (hi | ⟨rfl, rfl⟩) (hj | ⟨rfl, hk⟩)
    · exact h.unique.1 hi hj
    · exact absurd (h.lt_size hi).2 (hk ▸ Nat.lt_irrefl _)
    · exact absurd (h.lt_size hj).2 (Nat.lt_irrefl _)
    · rfl
  · rintro i j k (hi | ⟨rfl, rfl⟩) (hj | ⟨hk, rfl⟩)
    · exact h.unique.2 hi hj
    · exact absurd (h.lt_size hi).1 (hk ▸ Nat.lt_irrefl _)
    · exact absurd (h.lt_size hj).1 (Nat.lt_irrefl _)
    · rfl

theorem Comparison.StoreLike.addFunction (h : S.StoreLike H w w') {c c' : Callable Code Nat}
    (hc : S.CallableLike H c c') :
    S.StoreLike (paired H w w') (w.addFunction c).2 (w'.addFunction c').2 where
  references := h.references
  unique := h.unique_paired
  functions {i i'} hi := by
    rcases hi with hi | ⟨rfl, rfl⟩
    · obtain ⟨d, d', hd, hd', hlike⟩ := h.functions hi
      exact ⟨d, d', (w.grows_addFunction c).functions hd, (w'.grows_addFunction c').functions hd',
        hlike.mono (le_paired H w w')⟩
    · exact ⟨c, c', Array.getElem?_push_size, Array.getElem?_push_size,
        hc.mono (le_paired H w w')⟩
  cells hS i := (h.cells hS i).mono (le_paired H w w')
  hostCalls hS := (h.hostCalls hS).imp fun _ _ hcall => hcall.mono (le_paired H w w')

namespace Comparison

/-- If the first run comes to an outcome under the condition `A`, or the second one under `B`, then
both do, with results related by `V` and like stores. -/
def Meet (S : Comparison) (A B : Prop) (H : Nat → Nat → Prop)
    (V : (Nat → Nat → Prop) → α → α' → Prop) (x : Option α × Store Code Nat)
    (y : Option α' × Store Code Nat) : Prop :=
  A ∧ x.1.isSome ∨ B ∧ y.1.isSome → ∃ H' a a', H ≤ H' ∧ S.StoreLike H' x.2 y.2 ∧
    x.1 = some a ∧ y.1 = some a' ∧ V H' a a'

/-- Failures that are alike, also in their places if these matter. -/
structure FaultLike (S : Comparison) (H : Nat → Nat → Prop) (f f' : Fault) : Prop where
  error : f.error.Like (Like S.references H) f'.error
  site_eq (hS : S.strict) : f.site = f'.site

/-- Results of computations that can fail. -/
abbrev Results (S : Comparison) (V : (Nat → Nat → Prop) → α → α' → Prop)
    (H : Nat → Nat → Prop) : Except Fault α → Except Fault α' → Prop :=
  Matches (S.FaultLike H) (V H)

abbrev MeetEval (S : Comparison) (A B : Prop) (H : Nat → Nat → Prop)
    (V : (Nat → Nat → Prop) → α → α' → Prop) (m : Eval Code α) (n : Eval Code α')
    (w w' : Store Code Nat) : Prop :=
  S.Meet A B H (S.Results V) (m.run w) (n.run w')

variable {V : (Nat → Nat → Prop) → α → α' → Prop} {W : (Nat → Nat → Prop) → δ → δ' → Prop}

namespace Meet

variable {x : Option α × Store Code Nat} {y : Option α' × Store Code Nat}

theorem done (hw : S.StoreLike H w w') {a : α} {a' : α'} (h : V H a a') :
    S.Meet A B H V (some a, w) (some a', w') :=
  fun _ => ⟨H, a, a', le_refl H, hw, rfl, rfl, h⟩

theorem grown {H₁ : Nat → Nat → Prop} (hH : H ≤ H₁) (h : S.Meet A B H₁ V x y) :
    S.Meet A B H V x y := by
  intro hor
  obtain ⟨H', a, a', hle, hmeet⟩ := h hor
  exact ⟨H', a, a', hH.trans hle, hmeet⟩

theorem weaken (h : S.Meet A' B' H V x y) (hA : A → A') (hB : B → B') : S.Meet A B H V x y :=
  fun hor => h (hor.imp (.imp_left hA) (.imp_left hB))

theorem mono {V' : (Nat → Nat → Prop) → α → α' → Prop} (h : S.Meet A B H V x y)
    (hV : ∀ H a a', V H a a' → V' H a a') : S.Meet A B H V' x y := by
  intro hor
  obtain ⟨H', a, a', hle, hw, hx, hy, hv⟩ := h hor
  exact ⟨H', a, a', hle, hw, hx, hy, hV H' a a' hv⟩

/-- Under both conditions there is an outcome on both sides or on neither. -/
theorem rel (h : S.Meet A B H V x y) (hA : A) (hB : B) :
    Option.Rel (fun a a' => ∃ H', H ≤ H' ∧ V H' a a') x.1 y.1 := by
  cases hx : x.1 with
  | some a =>
    obtain ⟨H', b, a', hle, -, hb, ha', hv⟩ := h (.inl ⟨hA, by rw [hx]; rfl⟩)
    rw [ha', ← Option.some.inj (hx.symm.trans hb)] at *
    exact .some ⟨H', hle, hv⟩
  | none =>
    cases hy : y.1 with
    | some a' =>
      obtain ⟨H', b, b', -, -, hb, -, -⟩ := h (.inr ⟨hB, by rw [hy]; rfl⟩)
      cases hx.symm.trans hb
    | none => exact .none

theorem bind {m : Run Code Nat α} {n : Run Code Nat α'} {f : α → Run Code Nat δ}
    {g : α' → Run Code Nat δ'} (h : S.Meet A B H V (m w) (n w'))
    (k : ∀ H' a a' u u', n w' = (some a', u') → H ≤ H' → S.StoreLike H' u u' → V H' a a' →
      S.Meet A B H' W (f a u) (g a' u')) : S.Meet A B H W ((m >>= f) w) ((n >>= g) w') := by
  intro hor
  rw [Run.bind_apply, Run.bind_apply] at hor ⊢
  have hfirst : A ∧ (m w).1.isSome ∨ B ∧ (n w').1.isSome := by
    refine hor.imp (.imp_right fun hsome => ?_) (.imp_right fun hsome => ?_)
    · rcases hm : m w with ⟨_ | a, u⟩
      · rw [hm] at hsome
        cases hsome
      · rfl
    · rcases hn : n w' with ⟨_ | a', u'⟩
      · rw [hn] at hsome
        cases hsome
      · rfl
  obtain ⟨H', a, a', hle, hu, hm, hn, hv⟩ := h hfirst
  rcases hmw : m w with ⟨o, u⟩
  rcases hnw : n w' with ⟨o', u'⟩
  rw [hmw, hnw] at hor
  rw [hmw] at hm hu
  rw [hnw] at hn hu
  subst hm hn
  exact (k H' a a' u u' hnw hle hu hv).grown hle hor

end Meet

theorem StoreLike.meet_newFunction (hw : S.StoreLike H w w') {c c' : Callable Code Nat}
    (hc : S.CallableLike H c c') :
    S.Meet A B H (fun H => Like S.references H) (Run.newFunction c w) (Run.newFunction c' w') :=
  Meet.grown (le_paired H w w') (Meet.done (hw.addFunction hc) (.function (.inr ⟨rfl, rfl⟩)))

namespace MeetEval

theorem pure (hw : S.StoreLike H w w') {a : α} {a' : α'} (h : V H a a') :
    S.MeetEval A B H V (Pure.pure a) (Pure.pure a') w w' :=
  Meet.done hw (.ok h)

theorem throw (hw : S.StoreLike H w w') {f f' : Fault} (h : S.FaultLike H f f') :
    S.MeetEval A B H V (MonadExcept.throw f) (MonadExcept.throw f') w w' :=
  Meet.done hw (.error h)

theorem bind_run {m : Eval Code α} {n : Eval Code α'} {f : α → Eval Code δ} {g : α' → Eval Code δ'}
    (h : S.MeetEval A B H V m n w w')
    (k : ∀ H' a a' u u', n.run w' = (some (.ok a'), u') → H ≤ H' → S.StoreLike H' u u' →
      V H' a a' → S.MeetEval A B H' W (f a) (g a') u u') :
    S.MeetEval A B H W (m >>= f) (n >>= g) w w' := by
  refine Meet.bind h fun H' r r' u u' hn hle hu hr => ?_
  cases hr with
  | ok hv => exact k H' _ _ u u' hn hle hu hv
  | error hf => exact Meet.done hu (.error hf)

theorem bind {m : Eval Code α} {n : Eval Code α'} {f : α → Eval Code δ} {g : α' → Eval Code δ'}
    (h : S.MeetEval A B H V m n w w')
    (k : ∀ H' a a' u u', H ≤ H' → S.StoreLike H' u u' → V H' a a' →
      S.MeetEval A B H' W (f a) (g a') u u') :
    S.MeetEval A B H W (m >>= f) (n >>= g) w w' :=
  h.bind_run fun H' a a' u u' _ => k H' a a' u u'

theorem lift {m : Run Code Nat α} {n : Run Code Nat α'} (h : S.Meet A B H V (m w) (n w')) :
    S.MeetEval A B H V (ExceptT.lift m) (ExceptT.lift n) w w' :=
  Meet.bind h fun _ _ _ _ _ _ _ hu hv => Meet.done hu (.ok hv)

theorem claim (hw : S.StoreLike H w w') {s s' : Nat} (hs : S.strict → s = s')
    {r : Except EvalError α} {r' : Except EvalError α'}
    (h : Matches (EvalError.Like (Like S.references H)) (V H) r r') :
    S.MeetEval A B H V (Eval.claim s r) (Eval.claim s' r') w w' := by
  cases h with
  | ok hv => exact Meet.done hw (.ok hv)
  | error he => exact Meet.done hw (.error ⟨he, fun hS => congrArg some (hs hS)⟩)

theorem within {m : Eval Code α} {n : Eval Code α'} (h : S.MeetEval A B H V m n w w') {s s' : Nat}
    (hs : S.strict → s = s') :
    S.MeetEval A B H V (Eval.within s m) (Eval.within s' n) w w' := by
  refine Meet.bind h fun H' r r' u u' _ _ hu hr => ?_
  cases hr with
  | ok hv => exact Meet.done hu (.ok hv)
  | error hf =>
    refine Meet.done hu (.error ⟨hf.error, fun hS => ?_⟩)
    simp only [Fault.orSite, hf.site_eq hS, hs hS]

theorem noted (hw : S.StoreLike H w w') {e e' : Event} (he : e.hostCall? = none)
    (he' : e'.hostCall? = none) {m : Eval Code α} {n : Eval Code α'}
    (h : ∀ u u', S.StoreLike H u u' → S.MeetEval A B H V m n u u') :
    S.MeetEval A B H V (do Eval.note e; m) (do Eval.note e'; n) w w' :=
  h _ _ ((hw.noteLeft he).noteRight he')

theorem reference (hw : S.StoreLike H w w') :
    S.MeetEval A B H (fun _ => S.references) Eval.reference Eval.reference w w' :=
  Meet.done hw.reference (.ok (hw.references 0))

theorem newFunction (hw : S.StoreLike H w w') {c c' : Callable Code Nat}
    (hc : S.CallableLike H c c') :
    S.MeetEval A B H (fun H => Like S.references H) (Eval.newFunction c) (Eval.newFunction c')
      w w' :=
  lift (hw.meet_newFunction hc)

/-- A standard answer to a question. -/
theorem question (hw : S.StoreLike H w w') {e e' : Event} (he : e.hostCall? = none)
    (he' : e'.hostCall? = none) {s s' : Nat} (hs : S.strict → s = s') {call call' : Caller Code}
    {r r' : Except EvalError Value} (h : Answers S.references H r r') :
    S.MeetEval A B H (fun H => Like S.references H)
      (do Eval.note e; Eval.claim s (← Eval.ask call (.answer r)))
      (do Eval.note e'; Eval.claim s' (← Eval.ask call' (.answer r'))) w w' :=
  noted hw he he' fun _ _ hu => claim hu hs h

end MeetEval

end Comparison

end ExprLang
