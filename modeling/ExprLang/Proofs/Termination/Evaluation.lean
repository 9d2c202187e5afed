import ExprLang.Proofs.Suppliers
import ExprLang.Proofs.Termination.Tameness

/-!
Code ends, and what it gives holds fit functions only, if it runs where all functions are fit. From
this it follows, by induction on the hand-overs that are left, that every call ends.
-/
namespace ExprLang

variable {limit k : Nat} {w u : Store Code Nat} {env : Env}

theorem deepens_self (d : Nat) (f : Value) (vs : List Value) :
    Deepens (Code.caller d f vs) (Code.caller d f vs) :=
  deepens_caller (Nat.le_refl d) f vs

theorem endsFit_logical (op : LogicalOp) {supply : Nat → Side → Value → Eval Code Value}
    (hsupply : ∀ d side v, Deepens (supply d side v) (supply d side v))
    (hleft : EndsFit limit (fun d => supply d .left .undefined) w)
    (hright : ∀ u, w.Grows u → EndsFit limit (fun d => supply d .right .undefined) u) :
    EndsFit limit
      (fun d => Eval.act (Code.caller d) (supply d) (Policy.Standard.logical op)) w := by
  simp only [Policy.Standard.logical_eq, Eval.act_run]
  refine hleft.bind (fun d => hsupply d _ _)
    (fun d a => congruence_deeper.act (deepens_self d) (hsupply d) _) fun a u hgrows _ => ?_
  split
  · simp only [Policy.Standard.rightOperand, Eval.act_run]
    refine (hright u hgrows).bind (fun d => hsupply d _ _)
      (fun d b => congruence_deeper.act (deepens_self d) (hsupply d) _) fun b t _ _ => ?_
    exact .pure fun h hh => absurd hh List.not_mem_nil
  · exact .pure fun h hh => absurd hh List.not_mem_nil

theorem endsFit_pipe {supply : Nat → Nat → Value → Eval Code Value}
    (hsupply : ∀ d i v, Deepens (supply d i v) (supply d i v))
    (hends : ∀ i v u, w.Grows u → AllFit limit u v.handles →
      EndsFit limit (fun d => supply d i v) u) (optionals : List Bool) (i : Nat) {v : Value}
    (hgrows : w.Grows u) (hv : AllFit limit u v.handles) :
    EndsFit limit
      (fun d => Eval.act (Code.caller d) (supply d) (Policy.Standard.runStages i v optionals))
      u := by
  induction optionals generalizing i v u with
  | nil => exact .pure hv
  | cons optional rest ih =>
    simp only [Policy.Standard.runStages]
    split
    · exact .pure hv
    · simp only [Eval.act_run]
      refine (hends i v u hgrows hv).bind (fun d => hsupply d i v)
        (fun d x => congruence_deeper.act (deepens_self d) (hsupply d) _) fun x t hut hx => ?_
      exact ih (i + 1) (hgrows.trans hut) hx

theorem EndsFit.andThen {δ : Type} {c : Code} {f : Nat → Value → Eval Code δ}
    {P : δ → Store Code Nat → Prop} (h : EndsFit limit (fun d => c.exec (Code.caller d) env) w)
    (hf : ∀ d v, Deepens (f d v) (f d v))
    (next : ∀ v u, w.Grows u → AllFit limit u v.handles → Ends limit (fun d => f d v) u P) :
    Ends limit (fun d => c.exec (Code.caller d) env >>= f d) w P :=
  Ends.bind h (fun d => deepens_exec (deepens_self d) env c) hf next

theorem endsFit_reference {f : Nat → Value} {hs : List Nat} (hf : ∀ r, (f r).handles ⊆ hs)
    (hfit : AllFit limit w hs) :
    EndsFit limit (fun _ => do return f (← Eval.reference)) w := by
  have hgrows : w.Grows { w with nextReference := w.nextReference + 1 } := ⟨id, List.suffix_refl _⟩
  refine .of_run (fun _ => rfl) fun v hv h hh => ?_
  cases hv
  exact (hfit h (hf _ hh)).mono hgrows

/-- A new function is fit if it would be in any store that has it. -/
theorem endsFit_newFunction {c : Callable Code Nat}
    (hc : ∀ u h, w.Grows u → u.functions[h]? = some c → Fit limit u h) :
    EndsFit limit (fun _ => Eval.newFunction c) w := by
  refine .of_run (fun _ => rfl) fun v hv h hh => ?_
  cases hv
  cases List.mem_singleton.1 hh
  exact hc _ _ (w.grows_addFunction c) Array.getElem?_push_size

theorem ends_note (e : Event) : Ends limit (fun _ => Eval.note e) w fun _ _ => True :=
  .of_run (fun _ => rfl) fun _ _ => trivial

theorem Ready.bind (henv : Ready limit k w env) (names : List String) {vs : List Value}
    (hvs : AllFit limit w (Value.itemHandles vs)) : Ready limit k w (env.bind names vs) := by
  refine ⟨henv.near, ?_, fun g hg => ?_⟩
  · rw [env.bind_context]
    exact henv.bare
  · rcases Env.handles_bind hg with hg | hg
    · exact hvs g hg
    · exact henv.fit g hg

theorem allFit_fill {slots : List (Option Value)} {vs : List Value}
    (hslots : ∀ v, some v ∈ slots → AllFit limit w v.handles)
    (hvs : AllFit limit w (Value.itemHandles vs)) :
    AllFit limit w (Value.itemHandles (Eval.fill slots vs)) := by
  intro g hg
  rcases Eval.itemHandles_fill hg with ⟨v, hv, hg⟩ | hg
  · exact hslots v hv g hg
  · exact hvs g hg

theorem fit_lambda {h : Nat} {names : List String} {body : Code}
    (hc : w.functions[h]? = some (.lambda names body env)) (henv : Ready limit k w env)
    (hbody : ∀ u env, w.Grows u → Ready limit k u env →
      EndsFit limit (fun d => body.exec (Code.caller d) env) u) : Fit limit w h := by
  refine ⟨.lambda hc henv.bare henv.fit.closed, .of_ends fun u vs hu hvs => ?_⟩
  refine .succ (fun d => Eval.call_function _ d h vs (hu.functions hc)) ?_
  have harguments : AllFit limit u (Value.itemHandles vs) := hvs ▸ allFit_nil
  exact hbody u _ hu ((henv.mono hu).bind names harguments)

theorem fit_curried (hends : CallsEnd limit k) (hw : Near limit (k + 1) w) {h site : Nat}
    {c : Context} {callee : Value} {slots : List (Option Value)}
    (hc : w.functions[h]? = some (.curried site c callee slots)) (hbare : c.Bare)
    (hcallee : AllFit limit w callee.handles)
    (hslots : ∀ v, some v ∈ slots → AllFit limit w v.handles) : Fit limit w h := by
  refine ⟨.curried hc hbare hcallee.closed fun v g hv hg => (hslots v hv g hg).1,
    .of_ends fun u vs hu hvs => ?_⟩
  refine .succ (fun d => Eval.call_function _ d h vs (hu.functions hc)) ?_
  have harguments : AllFit limit u (Value.itemHandles (Eval.fill slots vs)) :=
    allFit_fill (fun v hv => (hslots v hv).mono hu) (hvs ▸ allFit_nil)
  refine endsFit_callThrough hends (hw.mono hu) hbare site (hcallee.mono hu) ?_
  rintro _ ⟨⟩
  exact harguments

mutual

theorem endsFit_exec (hends : CallsEnd limit k) :
    ∀ (c : Code) {w : Store Code Nat} {env : Env}, Ready limit (k + 1) w env →
      EndsFit limit (fun d => c.exec (Code.caller d) env) w
  | .undefined, _, _, _ => .pure allFit_nil
  | .constant l, _, _, _ => .pure (by cases l <;> exact allFit_nil)
  | .lookup site name, _, _, henv => henv.lookup site name
  | .topic site, _, _, henv => henv.topic site
  | .unary site op argument, _, env, henv => by
    refine (endsFit_exec hends argument henv).andThen
      (fun d v => congruence_deeper.unary (deepens_self d) site env op v) fun v u hu _ => ?_
    exact (henv.mono hu).unary site op v
  | .binary site op left right, _, env, henv => by
    have hop := fun d a b => congruence_deeper.binary (deepens_self d) site env op a b
    have hright := fun d => deepens_exec (deepens_self d) env right
    refine (endsFit_exec hends left henv).andThen (fun d a => (hright d).bind (hop d a))
      fun a u hu _ => ?_
    have henvu := henv.mono hu
    refine (endsFit_exec hends right henvu).andThen (fun d => hop d a) fun b t ht _ => ?_
    exact (henvu.mono ht).binary site op a b
  | .logical site op left right, _, env, henv => by
    have hsides : ∀ d (side : Side), Deepens
        (match side with
          | .left => left.exec (Code.caller d) env
          | .right => right.exec (Code.caller d) env)
        (match side with
          | .left => left.exec (Code.caller d) env
          | .right => right.exec (Code.caller d) env) := by
      intro d side
      cases side with
      | left => exact deepens_exec (deepens_self d) env left
      | right => exact deepens_exec (deepens_self d) env right
    refine (ends_note (.logical op)).bind (fun d => congruence_deeper.noted _) (fun d _ =>
      congruence_deeper.within site (congruence_deeper.act (deepens_self d) (fun side _ =>
        hsides d side) _)) fun _ u hu _ => ?_
    have henvu := henv.mono hu
    rw [henv.bare.policy]
    refine .within site (endsFit_logical op (fun d side _ => hsides d side)
      (endsFit_exec hends left henvu) fun t ht => ?_)
    exact endsFit_exec hends right (henvu.mono ht)
  | .coalesce left right, _, env, henv => by
    refine (endsFit_exec hends left henv).andThen (fun d v => ?_) fun v u hu hv => ?_
    · split
      · exact deepens_exec (deepens_self d) env right
      · exact .pure v
    · split
      · exact endsFit_exec hends right (henv.mono hu)
      · exact .pure hv
  | .conditional test consequent alternate, _, env, henv => by
    have htruthy := fun d v => congruence_deeper.truthy (deepens_self d) env v
    have hbranches : ∀ d (b : Bool), Deepens
        (if b then consequent.exec (Code.caller d) env else alternate.exec (Code.caller d) env)
        (if b then consequent.exec (Code.caller d) env
          else alternate.exec (Code.caller d) env) := by
      intro d b
      cases b with
      | true => exact deepens_exec (deepens_self d) env consequent
      | false => exact deepens_exec (deepens_self d) env alternate
    refine (endsFit_exec hends test henv).andThen
      (fun d v => Deepens.bind (htruthy d v) (hbranches d)) fun v u hu _ => ?_
    have henvu := henv.mono hu
    refine (henvu.truthy v).bind (fun d => htruthy d v) hbranches fun b t ht _ => ?_
    have henvt := henvu.mono ht
    cases b with
    | true => exact endsFit_exec hends consequent henvt
    | false => exact endsFit_exec hends alternate henvt
  | .object entries, _, env, henv => by
    refine (endsFit_execEntries hends entries henv).bind
      (fun d => deepens_execEntries (deepens_self d) env entries)
      (fun d es => .bind .reference fun _ => .pure _) fun es u _ hes => ?_
    -- A repeated key drops values, so the object may hold fewer functions than its entries.
    refine endsFit_reference (fun r h hh => ?_) hes
    exact Value.mem_entryHandles.2 (Value.handles_ofEntries hh)
  | .array elements, _, env, henv => by
    refine (endsFit_execItems hends elements henv).bind
      (fun d => deepens_execItems (deepens_self d) env elements)
      (fun d vs => .bind .reference fun _ => .pure _) fun vs u _ hvs => ?_
    exact endsFit_reference (fun _ _ hh => hh) hvs
  | .property site target key, _, env, henv => by
    have hop := fun d t k => congruence_deeper.property (deepens_self d) site env t k
    have hkey := fun d => deepens_exec (deepens_self d) env key
    refine (endsFit_exec hends target henv).andThen (fun d t => (hkey d).bind (hop d t))
      fun t u hu ht => ?_
    have henvu := henv.mono hu
    refine (endsFit_exec hends key henvu).andThen (fun d => hop d t) fun k s hs _ => ?_
    exact (henvu.mono hs).property site k (ht.mono hs)
  | .callBare site callee, _, env, henv => by
    refine (endsFit_exec hends callee henv).andThen
      (fun d f => congruence_deeper.callThrough (deepens_self d) site env.context f none)
      fun f u hu hf => ?_
    exact endsFit_callThrough hends (henv.near.mono hu) henv.bare site hf fun _ h => nomatch h
  | .call site callee arguments, _, env, henv => by
    have hop := fun d f vs =>
      congruence_deeper.callThrough (deepens_self d) site env.context f (some vs)
    have harguments := fun d => deepens_execItems (deepens_self d) env arguments
    refine (endsFit_exec hends callee henv).andThen (fun d f => (harguments d).bind (hop d f))
      fun f u hu hf => ?_
    have henvu := henv.mono hu
    refine (endsFit_execItems hends arguments henvu).bind harguments (fun d => hop d f)
      fun vs t ht hvs => ?_
    refine endsFit_callThrough hends (henvu.near.mono ht) henv.bare site (hf.mono ht) ?_
    rintro _ ⟨⟩
    exact hvs
  | .curry site callee slots, _, env, henv => by
    have hslots := fun d => deepens_execSlots (deepens_self d) env slots
    refine (endsFit_exec hends callee henv).andThen
      (fun d f => (hslots d).bind fun _ => .newFunction _) fun f u hu hf => ?_
    have henvu := henv.mono hu
    refine (endsFit_execSlots hends slots henvu).bind hslots (fun d vs => .newFunction _)
      fun vs t ht hvs => ?_
    refine endsFit_newFunction fun s h hs hc => ?_
    have hcallee : AllFit limit s f.handles := (hf.mono ht).mono hs
    exact fit_curried hends ((henvu.mono ht).mono hs).near hc henv.bare hcallee
      fun v hv => (hvs v hv).mono hs
  | .pipe site head stages, _, env, henv => by
    have hstages := fun d => deepens_execStage (deepens_self d) env stages
    have hpipe := fun d action => congruence_deeper.within site
      (congruence_deeper.act (deepens_self d) (hstages d) action)
    refine (endsFit_exec hends head henv).andThen
      (fun d v => .bind (congruence_deeper.noted _) fun _ => hpipe d _) fun v u hu hv => ?_
    have henvu := henv.mono hu
    refine (ends_note _).bind (fun d => congruence_deeper.noted _) (fun d _ => hpipe d _)
      fun _ t ht _ => ?_
    have henvt := henvu.mono ht
    rw [henv.bare.policy]
    refine .within site (endsFit_pipe hstages (fun i x s hs hx => ?_) _ 0 ht (hv.mono ht))
    exact endsFit_execStage hends stages i (henvu.mono hs) hx
  | .lambda names body, _, env, henv =>
    endsFit_newFunction fun u h hu hc => fit_lambda hc (henv.mono hu) fun t env ht henv =>
      endsFit_exec hends body henv
  | .letIn name init body, _, env, henv => by
    refine (endsFit_exec hends init henv).andThen
      (fun d v => deepens_exec (deepens_self d) _ body) fun v u hu hv => ?_
    exact endsFit_exec hends body ((henv.mono hu).push name hv)

theorem endsFit_execItems (hends : CallsEnd limit k) : ∀ (cs : List (Option Code))
    {w : Store Code Nat} {env : Env}, Ready limit (k + 1) w env →
      Ends limit (fun d => Code.execItems (Code.caller d) env cs) w fun vs u =>
        AllFit limit u (Value.itemHandles vs)
  | [], _, _, _ => .pure allFit_nil
  | none :: cs, _, env, henv => by
    refine (endsFit_execItems hends cs henv).bind
      (fun d => deepens_execItems (deepens_self d) env cs) (fun _ _ => .pure _) fun vs u _ hvs => ?_
    exact .pure hvs
  | some c :: cs, _, env, henv => by
    have hrest := fun d => deepens_execItems (deepens_self d) env cs
    refine (endsFit_exec hends c henv).andThen (fun d v => (hrest d).bind fun _ => .pure _)
      fun v u hu hv => ?_
    refine (endsFit_execItems hends cs (henv.mono hu)).bind hrest (fun _ _ => .pure _)
      fun vs t ht hvs => ?_
    exact .pure ((hv.mono ht).append hvs)

theorem endsFit_execSlots (hends : CallsEnd limit k) : ∀ (cs : List (Option Code))
    {w : Store Code Nat} {env : Env}, Ready limit (k + 1) w env →
      Ends limit (fun d => Code.execSlots (Code.caller d) env cs) w fun vs u =>
        ∀ v, some v ∈ vs → AllFit limit u v.handles
  | [], _, _, _ => .pure fun v hv => nomatch hv
  | none :: cs, _, env, henv => by
    refine (endsFit_execSlots hends cs henv).bind
      (fun d => deepens_execSlots (deepens_self d) env cs) (fun _ _ => .pure _)
      fun vs u _ hvs => .pure fun v hv => ?_
    rcases List.mem_cons.1 hv with hv | hv
    · cases hv
    · exact hvs v hv
  | some c :: cs, _, env, henv => by
    have hrest := fun d => deepens_execSlots (deepens_self d) env cs
    refine (endsFit_exec hends c henv).andThen (fun d v => (hrest d).bind fun _ => .pure _)
      fun v u hu hv => ?_
    refine (endsFit_execSlots hends cs (henv.mono hu)).bind hrest (fun _ _ => .pure _)
      fun vs t ht hvs => .pure fun x hx => ?_
    rcases List.mem_cons.1 hx with hx | hx
    · cases hx
      exact hv.mono ht
    · exact hvs x hx

theorem endsFit_execEntries (hends : CallsEnd limit k) : ∀ (cs : List (String × Code))
    {w : Store Code Nat} {env : Env}, Ready limit (k + 1) w env →
      Ends limit (fun d => Code.execEntries (Code.caller d) env cs) w fun es u =>
        AllFit limit u (Value.entryHandles es)
  | [], _, _, _ => .pure allFit_nil
  | (_, c) :: cs, _, env, henv => by
    have hrest := fun d => deepens_execEntries (deepens_self d) env cs
    refine (endsFit_exec hends c henv).andThen (fun d v => (hrest d).bind fun _ => .pure _)
      fun v u hu hv => ?_
    refine (endsFit_execEntries hends cs (henv.mono hu)).bind hrest (fun _ _ => .pure _)
      fun es t ht hes => ?_
    exact .pure ((hv.mono ht).append hes)

theorem endsFit_execStage (hends : CallsEnd limit k) : ∀ (cs : List (Bool × Code)) (i : Nat)
    {v : Value} {w : Store Code Nat} {env : Env}, Ready limit (k + 1) w env →
      AllFit limit w v.handles →
        EndsFit limit (fun d => Code.execStage (Code.caller d) env cs i v) w
  | [], _, _, _, _, _, hv => .pure hv
  | (_, c) :: _, 0, _, _, _, henv, hv => endsFit_exec hends c (henv.push topicName hv)
  | _ :: cs, i + 1, _, _, _, henv, hv => endsFit_execStage hends cs i henv hv

end

/-- While hand-overs are left all closed functions are fit: they are made of closed ones, down to
lambdas without functions in their environments. -/
theorem fit_of_closed (hends : CallsEnd limit k) (hw : Near limit (k + 1) w) {h : Nat}
    (hh : Closed w h) : Fit limit w h := by
  induction hh with
  | lambda hc hbare henv ih =>
    exact fit_lambda hc ⟨hw, hbare, ih⟩ fun u env hu henv => endsFit_exec hends _ henv
  | curried hc hbare _ _ ihcallee ihslots =>
    exact fit_curried hends hw hc hbare ihcallee fun v hv g hg => ihslots v g hv hg

theorem callsEnd_succ (hends : CallsEnd limit k) : CallsEnd limit (k + 1) := by
  intro w f vs hw hf hvs
  have hfit : ∀ {hs : List Nat}, (∀ h ∈ hs, Closed w h) → AllFit limit w hs :=
    fun hs h hh => fit_of_closed hends hw (hs h hh)
  by_cases hfunction : ∀ h, f ≠ .function h
  · exact endsFit_of_not_function hfunction vs
  obtain ⟨h, rfl⟩ : ∃ h, f = .function h := by simpa using hfunction
  -- Being tame says nothing of arguments that hold functions, so the call is entered.
  cases hf h (List.mem_singleton.2 rfl) with
  | @lambda _ names body env hc hbare henv =>
    refine .succ (fun d => Eval.call_function _ d h vs hc) ?_
    have hready : Ready limit (k + 1) w env := ⟨hw, hbare, hfit henv⟩
    exact endsFit_exec hends body (hready.bind names (hfit hvs))
  | @curried _ site c callee slots hc hbare hcallee hslots =>
    refine .succ (fun d => Eval.call_function _ d h vs hc) ?_
    refine endsFit_callThrough hends hw hbare site (hfit hcallee) ?_
    rintro _ ⟨⟩
    exact allFit_fill (fun v hv => hfit fun g => hslots v g hv) (hfit hvs)

theorem callsEnd (limit k : Nat) : CallsEnd limit k := by
  induction k with
  | zero => exact callsEnd_zero limit
  | succ k ih => exact callsEnd_succ ih

end ExprLang
