import ExprLang.Proofs.Termination.Growth

/-!
Computations that end: they come to the same outcome at every depth that is great enough, unless
they hand over functions more often than a limit allows.
-/
namespace ExprLang

variable {α δ : Type}

/-- A computation at every depth to which calls may be nested. -/
abbrev AtDepths (α : Type) : Type := Nat → Eval Code α

def Settles (m : AtDepths α) (w : Store Code Nat) (r : Except Fault α) (u : Store Code Nat) :
    Prop :=
  ∃ d, ∀ d' ≥ d, (m d').run w = (some r, u)

def Overflows (limit : Nat) (m : AtDepths α) (w : Store Code Nat) : Prop :=
  ∃ d, ∀ d' ≥ d, limit < handOvers ((m d').run w).2.events

/-- It settles, with `Q` of its value, or overflows. -/
def Ends (limit : Nat) (m : AtDepths α) (w : Store Code Nat) (Q : α → Store Code Nat → Prop) :
    Prop :=
  (∃ r u, Settles m w r u ∧ ∀ a, r = .ok a → Q a u) ∨ Overflows limit m w

theorem Settles.unique {m : AtDepths α} {w u u' : Store Code Nat} {r r' : Except Fault α}
    (h : Settles m w r u) (h' : Settles m w r' u') : r = r' ∧ u = u' := by
  obtain ⟨d, hd⟩ := h
  obtain ⟨d', hd'⟩ := h'
  have heq := (hd (max d d') (Nat.le_max_left d d')).symm.trans (hd' _ (Nat.le_max_right d d'))
  cases heq
  exact ⟨rfl, rfl⟩

namespace Ends

variable {limit : Nat} {m : AtDepths α} {w : Store Code Nat} {Q Q' : α → Store Code Nat → Prop}

theorem of_run {r : Except Fault α} {u : Store Code Nat} (h : ∀ d, (m d).run w = (some r, u))
    (hQ : ∀ a, r = .ok a → Q a u) : Ends limit m w Q :=
  .inl ⟨r, u, ⟨0, fun d _ => h d⟩, hQ⟩

theorem pure {a : α} (h : Q a w) : Ends limit (fun _ => Pure.pure a) w Q :=
  of_run (fun _ => rfl) fun _ hb => by cases hb; exact h

theorem of_limit (hlimit : limit < handOvers w.events) (hm : ∀ d, Deepens (m d) (m d)) :
    Ends limit m w Q :=
  .inr ⟨0, fun d _ => Nat.lt_of_lt_of_le hlimit ((hm d).grows w).handOvers_le⟩

theorem mono (h : Ends limit m w Q) (hQ : ∀ a u, Q a u → Q' a u) : Ends limit m w Q' := by
  rcases h with ⟨r, u, hset, hr⟩ | hover
  · exact .inl ⟨r, u, hset, fun a ha => hQ a u (hr a ha)⟩
  · exact .inr hover

theorem settled (h : Ends limit m w Q) {a : α} {u : Store Code Nat}
    (hset : Settles m w (.ok a) u) : Q a u ∨ limit < handOvers u.events := by
  rcases h with ⟨r, t, hset', hr⟩ | ⟨d, hd⟩
  · obtain ⟨rfl, rfl⟩ := hset.unique hset'
    exact .inl (hr a rfl)
  · obtain ⟨e, he⟩ := hset
    have hover := hd (max d e) (Nat.le_max_left d e)
    rw [he _ (Nat.le_max_right d e)] at hover
    exact .inr hover

/-- The outcome of a call is that of the body, one level further down. -/
theorem succ {n : AtDepths α} (hn : ∀ d, (m (d + 1)).run w = (n d).run w)
    (h : Ends limit n w Q) : Ends limit m w Q := by
  have hstep : ∀ d d', d' ≥ d + 1 → (m d').run w = (n (d' - 1)).run w := by
    intro d d' hd'
    rw [← hn, Nat.sub_add_cancel (by omega)]
  rcases h with ⟨r, u, ⟨d, hd⟩, hr⟩ | ⟨d, hd⟩
  · refine .inl ⟨r, u, ⟨d + 1, fun d' hd' => ?_⟩, hr⟩
    rw [hstep d d' hd']
    exact hd _ (by omega)
  · refine .inr ⟨d + 1, fun d' hd' => ?_⟩
    rw [hstep d d' hd']
    exact hd _ (by omega)

theorem bind {f : Nat → α → Eval Code δ} {P : δ → Store Code Nat → Prop}
    (h : Ends limit m w Q) (hm : ∀ d, Deepens (m d) (m d)) (hf : ∀ d a, Deepens (f d a) (f d a))
    (k : ∀ a u, w.Grows u → Q a u → Ends limit (fun d => f d a) u P) :
    Ends limit (fun d => m d >>= f d) w P := by
  rcases h with ⟨r, u, ⟨d, hd⟩, hr⟩ | ⟨d, hd⟩
  · have hgrows : w.Grows u := by
      have hw := (hm d).grows w
      rwa [hd d (Nat.le_refl d)] at hw
    cases r with
    | error e =>
      refine .inl ⟨.error e, u, ⟨d, fun d' hd' => ?_⟩, fun a ha => nomatch ha⟩
      rw [Eval.bind_apply, hd d' hd']
    | ok a =>
      -- From the greater of the two depths on, both parts are as they stay.
      have hrun : ∀ d' ≥ d, (m d' >>= f d').run w = (f d' a).run u := by
        intro d' hd'
        rw [Eval.bind_apply, hd d' hd']
      rcases k a u hgrows (hr a rfl) with ⟨s, v, ⟨e, he⟩, hs⟩ | ⟨e, he⟩
      · refine .inl ⟨s, v, ⟨max d e, fun d' hd' => ?_⟩, hs⟩
        rw [hrun d' (by omega)]
        exact he d' (by omega)
      · refine .inr ⟨max d e, fun d' hd' => ?_⟩
        rw [hrun d' (by omega)]
        exact he d' (by omega)
  · refine .inr ⟨d, fun d' hd' => ?_⟩
    have hover := hd d' hd'
    rw [Eval.bind_apply]
    rcases hrun : (m d').run w with ⟨_ | e | a, u⟩ <;> rw [hrun] at hover
    · exact hover
    · exact hover
    · exact Nat.lt_of_lt_of_le hover ((hf d' a).grows u).handOvers_le

theorem within (site : Nat) (h : Ends limit m w Q) :
    Ends limit (fun d => Eval.within site (m d)) w Q := by
  rcases h with ⟨r, u, ⟨d, hd⟩, hr⟩ | ⟨d, hd⟩
  · refine .inl ⟨r.mapError (·.orSite site), u, ⟨d, fun d' hd' => ?_⟩, ?_⟩
    · rw [Eval.within_apply, hd d' hd']
      rfl
    · intro a ha
      cases r with
      | ok b => exact hr a (by cases ha; rfl)
      | error e => cases ha
  · refine .inr ⟨d, fun d' hd' => ?_⟩
    rw [Eval.within_apply]
    exact hd d' hd'

end Ends

end ExprLang
