import ExprLang.Proofs.Correspondence.Execution
import ExprLang.Proofs.Correspondence.HostLibrary
import ExprLang.Proofs.Correspondence.Outcomes
import ExprLang.Proofs.Correspondence.Rewriting
import ExprLang.Proofs.Spanless
import ExprLang.Proofs.Termination
import Mathlib.Logic.Relation

/-!
Binding forms are short for applications. Under the standard policy, and with host functions that
use functions only by calling them, an evaluation does the same when a `let`, a pipe of one stage or
a call with placeholders is written as the application it is short for, wherever that stands.
-/
namespace ExprLang

open Value (Like Answers)

variable {n : Nat}

/-- The functions that exist, each paired with itself. -/
def existing (n : Nat) : Nat → Nat → Prop := fun h h' => h = h' ∧ h < n

theorem existing_biUnique (n : Nat) : Relator.BiUnique (existing n) := by
  constructor
  · rintro h i j ⟨rfl, -⟩ ⟨rfl, -⟩
    rfl
  · rintro h i j ⟨rfl, -⟩ ⟨rfl, -⟩
    rfl

/-- Whatever else is paired, the functions that exist look the same as their partners. -/
theorem min_eq_of_existing_le {H : Nat → Nat → Prop} (hle : existing n ≤ H)
    (hH : Relator.BiUnique H) {h h' : Nat} (hh : H h h') : min h n = min h' n := by
  by_cases hlt : h < n
  · rw [hH.2 hh (hle h h ⟨rfl, hlt⟩)]
  · by_cases hlt' : h' < n
    · rw [hH.1 hh (hle h' h' ⟨rfl, hlt'⟩)]
    · omega

structure Context.Settled (c : Context) (n : Nat) : Prop where
  policy : c.policy = .standard
  globals (v : Value) (hv : v ∈ c.globals) (h : Nat) (hh : h ∈ v.handles) : h < n
  data (v : Value) (hv : v ∈ c.data) (h : Nat) (hh : h ∈ v.handles) : h < n

/-- A function made before, which holds only functions that exist. One of the host uses functions
only by calling them. -/
inductive Callable.Settled (n : Nat) : Callable Code Nat → Prop where
  | host (name : String) {f : HostFunction} (hf : HostFunction.Alike (existing n) f f) :
    Settled n (.host name f)
  | lambda (names : List String) (body : Code) {env : Env} (hc : env.context.Settled n)
    (hscope : ∀ h ∈ env.handles, h < n) : Settled n (.lambda names body env)
  | curried (site : Nat) {c : Context} (hc : c.Settled n) {callee : Value}
    {slots : List (Option Value)} (hcallee : ∀ h ∈ callee.handles, h < n)
    (hslots : ∀ v, some v ∈ slots → ∀ h ∈ v.handles, h < n) :
    Settled n (.curried site c callee slots)

structure Store.Settled (w : Store Code Nat) : Prop where
  functions (c : Callable Code Nat) (hc : c ∈ w.functions) : c.Settled w.functions.size
  cells (i h : Nat) (hh : h ∈ (w.cells i).handles) : h < w.functions.size

/-- Evaluations with host functions, the second nesting some more calls than the first. -/
def Comparison.withHosts (slack : Nat) : Comparison where
  strict := False
  references := Eq
  slack
  unique := ⟨fun _ _ _ h h' => h.trans h'.symm, fun _ _ _ h h' => h.symm.trans h'⟩
  references_eq _ := rfl

section Settled

variable {slack : Nat}

theorem like_settled {v : Value} (hv : ∀ h ∈ v.handles, h < n) : Like Eq (existing n) v v :=
  Value.like_self (fun _ => rfl) v fun h hh => ⟨rfl, hv h hh⟩

theorem Context.Settled.answers {c : Context} (hc : c.Settled n) (name : String) :
    Answers Eq (existing n) (Policy.Standard.resolve name c.globals c.data)
      (Policy.Standard.resolve name c.globals c.data) := by
  cases hr : Policy.Standard.resolve name c.globals c.data with
  | ok v =>
    refine .ok (like_settled fun h hh => ?_)
    rcases Policy.Standard.mem_handles_resolve hr hh with ⟨u, hu, hh⟩ | ⟨u, hu, hh⟩
    · exact hc.globals u hu h hh
    · exact hc.data u hu h hh
  | error e => exact .error (.same (Policy.Standard.received?_resolve hr))

theorem Context.Settled.envLike {env : Env} (hc : env.context.Settled n)
    (hscope : ∀ h ∈ env.handles, h < n) :
    (Comparison.withHosts slack).EnvLike (existing n) Eq env env where
  policy := hc.policy
  policy' := hc.policy
  bound {x x'} hx := by
    subst hx
    cases hv : env.scope.lookup? x with
    | none => exact .none
    | some v => exact .some (like_settled fun h hh => hscope h (Env.handles_lookup? hv hh))
  free {x x'} hx _ := by
    subst hx
    exact hc.answers x

theorem Callable.Settled.like {c : Callable Code Nat} (hc : c.Settled n) :
    (Comparison.withHosts slack).CallableLike (existing n) c c := by
  cases hc with
  | host name hf => exact .host id hf
  | lambda names body hc hscope =>
    have hbody : Code.Corresponds (Comparison.withHosts slack) slack
        (NamePairs.bind Eq names names) body body :=
      Code.corresponds_self (fun x => NamePairs.bind_self names fun _ => rfl) slack body
    exact .lambda hbody (hc.envLike hscope)
  | @curried site c hc callee slots hcallee hslots =>
    refine .curried (fun h => h.elim) hc.policy hc.policy (like_settled hcallee) ?_
    refine List.forall₂_same.2 fun o ho => ?_
    cases o with
    | none => exact .none
    | some v => exact .some (like_settled (hslots v ho))

theorem Store.Settled.storeLike {w : Store Code Nat} (hw : w.Settled) :
    (Comparison.withHosts slack).StoreLike (existing w.functions.size) w w where
  references _ := rfl
  unique := existing_biUnique _
  functions {h h'} hh := by
    obtain ⟨rfl, hlt⟩ := hh
    have hc := Array.getElem?_eq_getElem hlt
    exact ⟨_, _, hc, hc, (hw.functions _ (Array.getElem_mem hlt)).like⟩
  cells _ i := like_settled (hw.cells i)
  hostCalls _ := List.forall₂_same.2 fun c _ => .same c

end Settled

section Shows

variable {slack : Nat} {c c' : Code} {env : Env} {w : Store Code Nat}
  (hcode : Code.Corresponds (Comparison.withHosts slack) slack Eq c c') (hw : w.Settled)
  (hc : env.context.Settled w.functions.size) (hscope : ∀ h ∈ env.handles, h < w.functions.size)

include hcode hw hc hscope

/-- If either comes to an outcome at these depths of calls, so does the other, and they look the
same. -/
theorem Code.Corresponds.observe_eq {d e : Nat}
    (hor : (Comparison.withHosts slack).Reaches d slack e ∧ (c.eval d env w).1.isSome ∨
      e ≤ d ∧ (c'.eval e env w).1.isSome) :
    ∃ r u r' u', c.eval d env w = (some r, u) ∧ c'.eval e env w = (some r', u') ∧
      observe w.functions.size r u = observe w.functions.size r' u' := by
  have hmeet := Comparison.runs_exec (Comparison.callsMeetAt d) hcode hw.storeLike
    (hc.envLike hscope) (e := e)
  obtain ⟨H, r, r', hle, hu, hr, hr', hlike⟩ := hmeet hor
  have hmin : ∀ h h', H h h' → min h w.functions.size = min h' w.functions.size :=
    fun _ _ => min_eq_of_existing_le hle hu.unique
  exact ⟨r, _, r', _, Prod.ext hr rfl, Prod.ext hr' rfl, Comparison.observe_eq id hu hmin hlike⟩

/-- Corresponding code shows the same. -/
theorem Code.Corresponds.shows_iff (o : Observation) : c.Shows env w o ↔ c'.Shows env w o := by
  constructor
  · rintro ⟨d, r, u, hrun, rfl⟩
    obtain ⟨s, t, r', u', hs, hr', hsame⟩ := hcode.observe_eq hw hc hscope
      (.inl ⟨Nat.le_refl ((slack + 1) * d + slack), by rw [hrun]; rfl⟩)
    cases hrun.symm.trans hs
    exact ⟨_, r', u', hr', hsame⟩
  · rintro ⟨e, r', u', hrun, rfl⟩
    obtain ⟨r, u, s, t, hr, hs, hsame⟩ := hcode.observe_eq hw hc hscope
      (.inr ⟨Nat.le_refl e, by rw [hrun]; rfl⟩)
    cases hrun.symm.trans hs
    exact ⟨e, r, u, hr, hsame.symm⟩

end Shows

namespace Expr

/-- Trees that are the same up to their spans and to the binding forms that are written as what they
are short for. -/
def Equated : Expr → Expr → Prop :=
  Relation.EqvGen fun e e' => e.eraseSpans = e'.eraseSpans ∨ e.Rewrites e'

theorem Equated.shows_iff {e e' : Expr} (h : e.Equated e') (env : Env) {w : Store Code Nat}
    (hw : w.Settled) (hc : env.context.Settled w.functions.size)
    (hscope : ∀ h ∈ env.handles, h < w.functions.size) (o : Observation) :
    (e.compile 0).Shows env w o ↔ (e'.compile 0).Shows env w o := by
  induction h with
  | rel e e' h =>
    rcases h with hspans | hrewrites
    · rw [← e.compile_eraseSpans, hspans, e'.compile_eraseSpans]
    · have hcode : Code.Corresponds (Comparison.withHosts e'.height) e'.height Eq (e.compile 0)
          (e'.compile 0) :=
        hrewrites.corresponds id (Nat.le_refl _) (Nat.le_refl _) ⟨rfl, fun _ _ => rfl⟩
      exact hcode.shows_iff hw hc hscope o
  | refl e => rfl
  | symm e e' _ ih => exact ih.symm
  | trans e e' e'' _ _ ih ih' => exact ih.trans ih'

end Expr

namespace Expression

variable {x : Expression} {data : Option Value} {w : Store Code Nat}

theorem eval_of_evaluate {d : Nat} {r : Except ExpressionError Value} {u : Store Code Nat}
    (h : x.evaluate d data w = (some r, u)) :
    ∃ a, x.code.eval d (x.env data) w = (some a, u) ∧ r = a.mapError x.explain := by
  unfold evaluate at h
  rcases hrun : x.code.eval d (x.env data) w with ⟨_ | a, v⟩ <;> rw [hrun] at h <;> cases h
  exact ⟨a, rfl, rfl⟩

theorem terminates_iff_shows : x.Terminates data w ↔ ∃ o, x.code.Shows (x.env data) w o := by
  constructor
  · rintro ⟨d, r, u, hrun⟩
    obtain ⟨a, ha, -⟩ := eval_of_evaluate (hrun d (Nat.le_refl d))
    exact ⟨_, d, a, u, ha, rfl⟩
  · rintro ⟨_, d, a, u, hrun, -⟩
    have hevaluate : x.evaluate d data w = (some (a.mapError x.explain), u) := by
      rw [evaluate, hrun]
      rfl
    exact terminates_of_evaluate hevaluate

end Expression

/-- Failures of the same cause, or values that look the same but for the functions made since; if
they hold no function they are the same. -/
abbrev SameOutcome (n : Nat) :
    Except ExpressionError Value → Except ExpressionError Value → Prop :=
  Matches ExpressionError.SameCause fun v v' =>
    v.blur n = v'.blur n ∧ (v.handles = [] → v = v')

theorem sameOutcome_of_observe {a a' : Except Fault Value} {u u' : Store Code Nat}
    (h : observe n a u = observe n a' u') (f f' : Fault → ExpressionError)
    (hf : ∀ b, (f b).cause = b) (hf' : ∀ b, (f' b).cause = b) :
    SameOutcome n (a.mapError f) (a'.mapError f') := by
  have hresult := congrArg Observation.result h
  cases a with
  | ok v =>
    cases a' with
    | ok v' =>
      have hblur : v.blur n = v'.blur n := Except.ok.inj hresult
      exact .ok ⟨hblur, Value.eq_of_blur hblur⟩
    | error b => cases hresult
  | error b =>
    cases a' with
    | ok v => cases hresult
    | error b' =>
      have hblur : b.error.blur n = b'.error.blur n := Except.error.inj hresult
      refine .error ⟨?_, ?_⟩
      · rw [hf, hf']
        exact EvalError.like_of_blur hblur
      · rw [ExpressionError.message, ExpressionError.message, hf, hf', ← b.error.message_blur n,
          hblur, b'.error.message_blur n]

/-- Writing binding forms as the applications they are short for, or the other way round, anywhere
and any number of times, changes neither whether an evaluation ends nor its outcome nor the calls of
host functions. -/
theorem evaluate_of_equated {tree tree' : Expr} (h : tree.Equated tree') {source source' : String}
    {o : Options} {x x' : Expression} (hx : Expression.ofTree tree source o = .ok x)
    (hx' : Expression.ofTree tree' source' o = .ok x') {data : Option Value} {w : Store Code Nat}
    (hw : w.Settled) (hc : Context.Settled ⟨o.policy, o.globals, data⟩ w.functions.size) :
    (x.Terminates data w ↔ x'.Terminates data w) ∧
      ∀ {d d' : Nat} {r r' : Except ExpressionError Value} {u u' : Store Code Nat},
        x.evaluate d data w = (some r, u) → x'.evaluate d' data w = (some r', u') →
        SameOutcome w.functions.size r r' ∧
          (hostCalls u.events).map (·.blur w.functions.size) =
            (hostCalls u'.events).map (·.blur w.functions.size) := by
  obtain rfl := Expression.ofTree_eq_ok hx
  obtain rfl := Expression.ofTree_eq_ok hx'
  have hshows := h.shows_iff (.ofContext ⟨o.policy, o.globals, data⟩) hw hc fun _ hh => nomatch hh
  refine ⟨?_, fun {d d' r r' u u'} hrun hrun' => ?_⟩
  · rw [Expression.terminates_iff_shows, Expression.terminates_iff_shows]
    exact exists_congr hshows
  · obtain ⟨a, ha, rfl⟩ := Expression.eval_of_evaluate hrun
    obtain ⟨a', ha', rfl⟩ := Expression.eval_of_evaluate hrun'
    have hsame : observe w.functions.size a u = observe w.functions.size a' u' :=
      Code.Shows.unique ((hshows _).1 ⟨d, a, u, ha, rfl⟩) ⟨d', a', u', ha', rfl⟩
    exact ⟨sameOutcome_of_observe hsame _ _ (fun _ => rfl) fun _ => rfl,
      congrArg Observation.calls hsame⟩

/-- In `[let x = a, y = x, y & x, a | % & "b", apply(concat(#, "c"), a)]` all three binding forms
are written as applications at once. -/
theorem evaluate_of_equated_elements :
    let name (s : String) : Expr := .identifier noSpan s
    let text (s : String) : Expr := .literal noSpan (.string s)
    let join (l r : Expr) : Expr := .binary noSpan .concat l r
    let declarations : List (Declaration Expr) :=
      [⟨⟨"x", noSpan⟩, name "a", noSpan⟩, ⟨⟨"y", noSpan⟩, name "x", noSpan⟩]
    let sum := join (name "y") (name "x")
    let stage := join (.topic noSpan) (text "b")
    let arguments : List (Argument Expr) := [.placeholder noSpan, .value (text "c")]
    let apply (f : Expr) : Expr := .call noSpan (name "apply") [.value f, .value (name "a")]
    let tree : Expr := .array noSpan [some (.letIn noSpan declarations sum),
      some (.pipe noSpan (name "a") [⟨false, stage⟩]),
      some (apply (.call noSpan (name "concat") arguments))]
    let tree' : Expr := .array noSpan [some (Expr.applications declarations sum),
      some (Expr.stageApplication "t" (name "a") stage),
      some (apply (Expr.speltCall "g" ["p", "q"] (name "concat") arguments))]
    let globals : Value := .object 0 [("apply", .function 0), ("concat", .function 1)]
    let o : Options := ⟨some globals, .standard⟩
    let data : Value := .object 1 [("a", .string "d")]
    let w : Store Code Nat :=
      ⟨#[.host "apply" (Host.applyThen .answer),
        .host "concat" (Host.operator fun a b => .ok (a.concat b))], 2, fun _ => .undefined, []⟩
    ∃ x x', tree.Equated tree' ∧ Expression.ofTree tree "" o = .ok x ∧
      Expression.ofTree tree' "" o = .ok x' ∧ w.Settled ∧
      Context.Settled ⟨o.policy, o.globals, some data⟩ w.functions.size ∧
      (x.evaluate 3 (some data) w).1.isSome ∧
      (x.Terminates (some data) w ↔ x'.Terminates (some data) w) ∧
      ∀ {d d' : Nat} {r r' : Except ExpressionError Value} {u u' : Store Code Nat},
        x.evaluate d (some data) w = (some r, u) → x'.evaluate d' (some data) w = (some r', u') →
        SameOutcome w.functions.size r r' ∧
          (hostCalls u.events).map (·.blur w.functions.size) =
            (hostCalls u'.events).map (·.blur w.functions.size) := by
  intro name text join declarations sum stage arguments apply tree tree' globals o data w
  have havoids : stage.Avoids "t" := by
    refine Expr.avoids_iff.2 ⟨List.not_mem_nil, fun c hc => ?_⟩
    rcases List.mem_pair.1 hc with rfl | rfl <;>
      exact Expr.avoids_iff.2 ⟨List.not_mem_nil, fun _ hc => nomatch hc⟩
  have hequated : tree.Equated tree' := by
    refine .rel _ _ (.inr (.array (.some ?_ (.some ?_ (.some ?_ .nil)))))
    · exact .replaced (.declarations _ _ _)
    · exact .replaced (.stage _ _ (by decide) havoids)
    · refine .call (.same _) (.value (.replaced ?_) (.value (.same _) .nil))
      exact .placeholders rfl rfl (by decide) (by decide)
  have hw : w.Settled := by
    refine ⟨fun c hc => ?_, fun i h hh => nomatch hh⟩
    simp only [w, List.mem_toArray, List.mem_cons, List.not_mem_nil, or_false] at hc
    rcases hc with rfl | rfl
    · exact .host _ (Host.alike_function (show Host.function? "apply" = _ from rfl) _)
    · exact .host _ (Host.alike_function (show Host.function? "concat" = _ from rfl) _)
  have hc : Context.Settled ⟨o.policy, o.globals, some data⟩ w.functions.size := by
    have hexist : ∀ h ∈ [0, 1], h < w.functions.size := by decide
    refine ⟨rfl, ?_, ?_⟩
    · rintro _ ⟨⟩ h hh
      exact hexist h hh
    · rintro _ ⟨⟩ h hh
      cases hh
  have hx : Expression.ofTree tree "" o = .ok ⟨"", tree.layout, tree.compile 0, o⟩ := rfl
  have hx' : Expression.ofTree tree' "" o = .ok ⟨"", tree'.layout, tree'.compile 0, o⟩ := rfl
  exact ⟨_, _, hequated, hx, hx', hw, hc, by decide +kernel,
    evaluate_of_equated hequated hx hx' hw hc⟩

end ExprLang
