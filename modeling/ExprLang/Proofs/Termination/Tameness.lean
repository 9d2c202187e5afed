import ExprLang.Proofs.Termination.Ends

/-!
Tame functions. A function is tame if calling it with arguments that hold no function ends with tame
functions again. As long as no function is handed over, all functions that an evaluation can reach
are tame, since they are made of functions made before; and each hand-over uses up some of the
limit.
-/
namespace ExprLang

/-- The standard policy, and no function from outside. -/
structure Context.Bare (c : Context) : Prop where
  policy : c.policy = .standard
  globals (v : Value) (h : v ∈ c.globals) : v.handles = []
  data (v : Value) (h : v ∈ c.data) : v.handles = []

/-- A function that is made of lambdas and calls with placeholders, down to the first ones made. -/
inductive Closed (w : Store Code Nat) : Nat → Prop where
  | lambda {h : Nat} {names : List String} {body : Code} {env : Env}
    (hc : w.functions[h]? = some (.lambda names body env)) (hbare : env.context.Bare)
    (henv : ∀ g ∈ env.handles, Closed w g) : Closed w h
  | curried {h site : Nat} {c : Context} {callee : Value} {slots : List (Option Value)}
    (hc : w.functions[h]? = some (.curried site c callee slots)) (hbare : c.Bare)
    (hcallee : ∀ g ∈ callee.handles, Closed w g)
    (hslots : ∀ v g, some v ∈ slots → g ∈ v.handles → Closed w g) : Closed w h

theorem Closed.mono {w u : Store Code Nat} (hgrows : w.Grows u) {h : Nat} (hh : Closed w h) :
    Closed u h := by
  induction hh with
  | lambda hc hbare _ ih => exact .lambda (hgrows.functions hc) hbare ih
  | curried hc hbare _ _ ihcallee ihslots =>
    exact .curried (hgrows.functions hc) hbare ihcallee ihslots

def calling (f : Value) (vs : List Value) : AtDepths Value := fun d => Code.caller d f vs

inductive Tame (limit : Nat) : Store Code Nat → Nat → Prop where
  | spent {w : Store Code Nat} {h : Nat} (hw : limit < handOvers w.events) : Tame limit w h
  | calls {w : Store Code Nat} {h : Nat}
    (ends : ∀ u vs, w.Grows u → Value.itemHandles vs = [] →
      Ends limit (calling (.function h) vs) u fun v t => ∀ g ∈ v.handles, Closed t g)
    (results : ∀ u vs v t, w.Grows u → Value.itemHandles vs = [] →
      Settles (calling (.function h) vs) u (.ok v) t → ∀ g ∈ v.handles, Tame limit t g) :
    Tame limit w h

variable {limit k : Nat} {w u : Store Code Nat}

theorem Tame.mono (hgrows : w.Grows u) {h : Nat} (hh : Tame limit w h) : Tame limit u h := by
  cases hh with
  | spent hw => exact .spent (Nat.lt_of_lt_of_le hw hgrows.handOvers_le)
  | calls ends results =>
    exact .calls (fun t vs ht => ends t vs (hgrows.trans ht))
      fun t vs v s ht => results t vs v s (hgrows.trans ht)

def Fit (limit : Nat) (w : Store Code Nat) (h : Nat) : Prop := Closed w h ∧ Tame limit w h

theorem Fit.mono (hgrows : w.Grows u) {h : Nat} (hh : Fit limit w h) : Fit limit u h :=
  ⟨hh.1.mono hgrows, hh.2.mono hgrows⟩

def AllFit (limit : Nat) (w : Store Code Nat) (hs : List Nat) : Prop := ∀ h ∈ hs, Fit limit w h

theorem AllFit.mono (hgrows : w.Grows u) {hs : List Nat} (hfit : AllFit limit w hs) :
    AllFit limit u hs :=
  fun h hh => (hfit h hh).mono hgrows

theorem AllFit.closed {hs : List Nat} (hfit : AllFit limit w hs) : ∀ h ∈ hs, Closed w h :=
  fun h hh => (hfit h hh).1

theorem allFit_nil : AllFit limit w [] := fun _ hh => absurd hh List.not_mem_nil

theorem AllFit.append {hs gs : List Nat} (hhs : AllFit limit w hs) (hgs : AllFit limit w gs) :
    AllFit limit w (hs ++ gs) := by
  intro h hh
  rcases List.mem_append.1 hh with hh | hh
  · exact hhs h hh
  · exact hgs h hh

/-- The values of a computation hold only fit functions. -/
abbrev EndsFit (limit : Nat) (m : AtDepths Value) (w : Store Code Nat) : Prop :=
  Ends limit m w fun v u => AllFit limit u v.handles

theorem Tame.of_ends {h : Nat}
    (hends : ∀ u vs, w.Grows u → Value.itemHandles vs = [] →
      EndsFit limit (calling (.function h) vs) u) :
    Tame limit w h := by
  refine .calls (fun u vs hu hvs => (hends u vs hu hvs).mono fun v t hv g hg => (hv g hg).1) ?_
  intro u vs v t hu hvs hset g hg
  rcases (hends u vs hu hvs).settled hset with hv | hspent
  · exact (hv g hg).2
  · exact .spent hspent

/-- A tame function ends when it is given no function. -/
theorem Tame.ends {h : Nat} (hh : Tame limit w h) {vs : List Value}
    (hvs : Value.itemHandles vs = []) : EndsFit limit (calling (.function h) vs) w := by
  cases hh with
  | spent hw => exact .of_limit hw fun d => deepens_caller (Nat.le_refl d) _ vs
  | calls ends results =>
    rcases ends w vs (.refl w) hvs with ⟨r, t, hset, hr⟩ | hover
    · refine .inl ⟨r, t, hset, ?_⟩
      rintro v rfl g hg
      exact ⟨hr v rfl g hg, results w vs v t (.refl w) hvs hset g hg⟩
    · exact .inr hover

/-- The hand-overs that are left are at most `k`. -/
def Near (limit k : Nat) (w : Store Code Nat) : Prop := limit < handOvers w.events + k

theorem Near.mono (hgrows : w.Grows u) (hw : Near limit k w) : Near limit k u :=
  Nat.lt_of_lt_of_le hw (Nat.add_le_add_right hgrows.handOvers_le k)

/-- Calls of closed functions end when at most `k` hand-overs are left. -/
def CallsEnd (limit k : Nat) : Prop :=
  ∀ {w : Store Code Nat} {f : Value} {vs : List Value}, Near limit k w →
    (∀ g ∈ f.handles, Closed w g) → (∀ g ∈ Value.itemHandles vs, Closed w g) →
      EndsFit limit (calling f vs) w

theorem callsEnd_zero (limit : Nat) : CallsEnd limit 0 :=
  fun hw _ _ => .of_limit hw fun d => deepens_caller (Nat.le_refl d) _ _

theorem endsFit_of_not_function {f : Value} (hf : ∀ h, f ≠ .function h) (vs : List Value) :
    EndsFit limit (calling f vs) w := by
  cases f with
  | function h => exact absurd rfl (hf h)
  | _ => exact .succ (fun d => rfl) (.of_run (fun _ => rfl) fun _ ha => nomatch ha)

theorem callThrough_standard (call : Caller Code) (site : Nat) {c : Context}
    (hc : c.policy = .standard) (f : Value) (vs : Option (List Value)) :
    Eval.callThrough call site c f vs =
      (do Eval.note (.call f vs); Eval.within site (call f (vs.getD []))) := by
  unfold Eval.callThrough
  rw [hc]
  refine congrArg (Eval.note (.call f vs) >>= ·) (funext fun _ => congrArg (Eval.within site) ?_)
  exact ExceptT.ext (bind_pure _)

/-- A standard answer to a question about values that hold only fit functions. -/
theorem endsFit_question (e : Event) (site : Nat) {r : Except EvalError Value}
    (hr : ∀ v, r = .ok v → AllFit limit w v.handles) :
    EndsFit limit
      (fun d => do Eval.note e; Eval.claim site (← Eval.ask (Code.caller d) (.answer r))) w := by
  refine .of_run (r := r.mapError (.atSite · site)) (fun d => by cases r <;> rfl) ?_
  intro v hv h hh
  cases r with
  | ok u =>
    cases hv
    exact (hr v rfl h hh).mono (w.grows_note e)
  | error e => cases hv

structure Ready (limit k : Nat) (w : Store Code Nat) (env : Env) : Prop where
  near : Near limit k w
  bare : env.context.Bare
  fit : AllFit limit w env.handles

namespace Ready

variable {env : Env}

theorem mono (hgrows : w.Grows u) (henv : Ready limit k w env) : Ready limit k u env :=
  ⟨henv.near.mono hgrows, henv.bare, henv.fit.mono hgrows⟩

theorem push (henv : Ready limit k w env) (name : String) {v : Value}
    (hv : AllFit limit w v.handles) : Ready limit k w (env.push ⟨[name], [v]⟩) := by
  refine ⟨henv.near, henv.bare, fun h hh => ?_⟩
  rw [env.handles_push] at hh
  rcases List.mem_append.1 hh with hh | hh
  · obtain ⟨u, hu, hh⟩ := Value.mem_itemHandles.1 hh
    exact hv h (List.mem_singleton.1 hu ▸ hh)
  · exact henv.fit h hh

theorem lookup (henv : Ready limit k w env) (site : Nat) (name : String) :
    EndsFit limit (fun d => Eval.lookup (Code.caller d) site env name) w := by
  unfold Eval.lookup
  cases hname : env.scope.lookup? name with
  | some v => exact .pure fun h hh => henv.fit h (Env.handles_lookup? hname hh)
  | none =>
    have hresolve : env.resolve name = .answer
        (Policy.Standard.resolve name env.context.globals env.context.data) := by
      rw [Env.resolve, henv.bare.policy]
      rfl
    rw [hresolve]
    refine endsFit_question _ site fun v hv h hh => ?_
    rw [Policy.Standard.handles_resolve henv.bare.globals henv.bare.data hv] at hh
    cases hh

theorem topic (henv : Ready limit k w env) (site : Nat) :
    EndsFit limit (fun _ => Eval.claim site env.topic) w := by
  refine .of_run (fun _ => rfl) fun v hv h hh => ?_
  cases htopic : env.topic with
  | ok u =>
    rw [htopic] at hv
    cases hv
    exact henv.fit h (Env.handles_topic htopic hh)
  | error e =>
    rw [htopic] at hv
    cases hv

theorem unary (henv : Ready limit k w env) (site : Nat) (op : UnaryOp) (v : Value) :
    EndsFit limit (fun d => Eval.unary (Code.caller d) site env op v) w := by
  unfold Eval.unary
  rw [henv.bare.policy]
  refine endsFit_question _ site fun u hu h hh => ?_
  rw [Policy.Standard.handles_unary hu] at hh
  cases hh

theorem binary (henv : Ready limit k w env) (site : Nat) (op : BinaryOp) (a b : Value) :
    EndsFit limit (fun d => Eval.binary (Code.caller d) site env op a b) w := by
  unfold Eval.binary
  rw [henv.bare.policy]
  refine endsFit_question _ site fun u hu h hh => ?_
  rw [Policy.Standard.handles_binary hu] at hh
  cases hh

theorem property (henv : Ready limit k w env) (site : Nat) {t : Value} (k : Value)
    (ht : AllFit limit w t.handles) :
    EndsFit limit (fun d => Eval.property (Code.caller d) site env t k) w := by
  unfold Eval.property
  rw [henv.bare.policy]
  exact endsFit_question _ site fun u hu h hh => ht h (Value.handles_property hu hh)

theorem truthy (henv : Ready limit k w env) (v : Value) :
    Ends limit (fun d => Eval.truthy (Code.caller d) env v) w fun _ _ => True := by
  unfold Eval.truthy
  rw [henv.bare.policy]
  exact .of_run (fun _ => rfl) fun _ _ => trivial

end Ready

/-- A call either hands over no function, or leaves less of the limit. -/
theorem endsFit_callThrough (hends : CallsEnd limit k) (hw : Near limit (k + 1) w) {c : Context}
    (hc : c.Bare) (site : Nat) {f : Value} (hf : AllFit limit w f.handles)
    {vs : Option (List Value)} (hvs : ∀ us ∈ vs, AllFit limit w (Value.itemHandles us)) :
    EndsFit limit (fun d => Eval.callThrough (Code.caller d) site c f vs) w := by
  simp only [callThrough_standard _ site hc.policy]
  have hnote : Ends limit (fun _ => Eval.note (.call f vs)) w fun _ u =>
      u = { w with events := .call f vs :: w.events } := .of_run (fun _ => rfl) fun _ _ => rfl
  refine hnote.bind (fun _ => congruence_deeper.noted _) (fun d _ =>
    congruence_deeper.within site (deepens_caller (Nat.le_refl d) f _)) fun _ u hgrows hu => ?_
  refine Ends.within site ?_
  by_cases hfunction : ∀ h, f ≠ .function h
  · exact endsFit_of_not_function hfunction _
  obtain ⟨h, rfl⟩ : ∃ h, f = .function h := by simpa using hfunction
  by_cases hnone : Value.itemHandles (vs.getD []) = []
  · have htame : Tame limit u h := (hf h (List.mem_singleton.2 rfl)).2.mono hgrows
    exact htame.ends hnone
  · -- Here the arguments hold a function, so the noted call counts as a hand-over.
    obtain ⟨us, rfl⟩ : ∃ us, vs = some us := by
      cases vs with
      | none => exact absurd rfl hnone
      | some us => exact ⟨us, rfl⟩
    have hover : Event.handsOver (.call (.function h) (some us)) = true := by
      simpa [Event.handsOver] using hnone
    have hnear : Near limit k u := by
      unfold Near handOvers at hw ⊢
      rw [hu, List.countP_cons_of_pos hover]
      omega
    exact hends hnear (hf.mono hgrows).closed ((hvs us rfl).mono hgrows).closed

end ExprLang
