import ExprLang.Proofs.Compilation
import ExprLang.Proofs.Termination.Evaluation

/-!
When evaluations end. Without functions from outside, an evaluation under the standard policy runs
forever only if it goes on handing functions over to functions, as a function does that is applied
to itself.
-/
namespace ExprLang

namespace Expression

/-- With calls nested deeply enough there is an outcome, a value or an error. -/
def Terminates (x : Expression) (data : Option Value) (w : Store Code Nat) : Prop :=
  ∃ depth r u, ∀ d ≥ depth, x.evaluate d data w = (some r, u)

/-- However deeply calls are nested, only so many of them are given functions. -/
def HandsOverAtMost (x : Expression) (data : Option Value) (w : Store Code Nat) (n : Nat) : Prop :=
  ∀ depth, handOvers (x.evaluate depth data w).2.events ≤ n

variable {x : Expression} {data : Option Value} {w : Store Code Nat}

theorem deepens_eval (x : Expression) (data : Option Value) {d d' : Nat} (hd : d ≤ d') :
    Deepens (x.code.eval d (x.env data)) (x.code.eval d' (x.env data)) :=
  deepens_exec (deepens_caller hd) (x.env data) x.code

/-- An outcome at one depth is the outcome at every greater one. -/
theorem terminates_of_evaluate {depth : Nat} {r : Except ExpressionError Value}
    {u : Store Code Nat} (h : x.evaluate depth data w = (some r, u)) : x.Terminates data w := by
  unfold evaluate at h
  rcases hrun : x.code.eval depth (x.env data) w with ⟨_ | a, v⟩ <;> rw [hrun] at h
  · cases h
  · refine ⟨depth, r, u, fun d hd => ?_⟩
    have hdeep : x.code.eval d (x.env data) w = (some a, v) := (x.deepens_eval data hd).same hrun
    rw [evaluate, hdeep]
    exact h

theorem Terminates.handsOverAtMost (h : x.Terminates data w) : ∃ n, x.HandsOverAtMost data w n := by
  obtain ⟨depth, r, u, hrun⟩ := h
  refine ⟨handOvers u.events, fun d => ?_⟩
  have hdeep := hrun (max depth d) (Nat.le_max_left depth d)
  have hgrows := (x.deepens_eval data (Nat.le_max_right depth d)).goes_on w
  have hstore : ((x.code.eval (max depth d) (x.env data)).run w).2 = u := congrArg Prod.snd hdeep
  rw [hstore] at hgrows
  exact hgrows.handOvers_le

theorem HandsOverAtMost.terminates {n : Nat} (hp : x.options.policy = .standard)
    (hglobals : ∀ v ∈ x.options.globals, v.handles = []) (hdata : ∀ v ∈ data, v.handles = [])
    (h : x.HandsOverAtMost data w n) : x.Terminates data w := by
  have hnear : Near n (n + 1) w := by
    unfold Near
    omega
  have hbare : (x.env data).context.Bare := ⟨hp, hglobals, hdata⟩
  have hready : Ready n (n + 1) w (x.env data) := ⟨hnear, hbare, allFit_nil⟩
  rcases endsFit_exec (callsEnd n n) x.code hready with ⟨r, u, ⟨depth, hrun⟩, -⟩ | ⟨depth, hover⟩
  · refine ⟨depth, r.mapError x.explain, u, fun d hd => ?_⟩
    have heval : x.code.eval d (x.env data) w = (some r, u) := hrun d hd
    rw [evaluate, heval]
    rfl
  · exact absurd (hover depth (Nat.le_refl depth)) (Nat.not_lt_of_le (h depth))

end Expression

/-- Without functions in the globals and the data, an evaluation under the standard policy ends if
and only if it hands over functions a limited number of times. -/
theorem terminates_iff (x : Expression) (hp : x.options.policy = .standard)
    (hglobals : ∀ v ∈ x.options.globals, v.handles = []) {data : Option Value}
    (hdata : ∀ v ∈ data, v.handles = []) (w : Store Code Nat) :
    x.Terminates data w ↔ ∃ n, x.HandsOverAtMost data w n := by
  constructor
  · exact fun h => h.handsOverAtMost
  · rintro ⟨n, hn⟩
    exact hn.terminates hp hglobals hdata

/-- `(f => f(a))(x => x)` -/
theorem terminates_iff_application :
    let tree : Expr := .call default (.lambda default [⟨"f", default⟩]
      (.call default (.identifier default "f") [.value (.identifier default "a")]))
      [.value (.lambda default [⟨"x", default⟩] (.identifier default "x"))]
    let options : Options := ⟨some .null, .standard⟩
    let data : Value := .object 0 [("a", .string "b")]
    ∃ x, Expression.ofTree tree "(f => f(a))(x => x)" options = .ok x ∧
      x.options.policy = .standard ∧ (∀ v ∈ x.options.globals, v.handles = []) ∧
      (∀ v ∈ some data, v.handles = []) ∧ x.Terminates (some data) .empty ∧
      ∃ n, x.HandsOverAtMost (some data) .empty n := by
  intro tree options data
  let x : Expression := ⟨"(f => f(a))(x => x)", tree.layout, tree.compile 0, options⟩
  have hglobals : ∀ v ∈ x.options.globals, v.handles = [] := by
    rintro _ ⟨⟩
    rfl
  have hdata : ∀ v ∈ some data, v.handles = [] := by
    rintro _ ⟨⟩
    rfl
  obtain ⟨r, u, hrun⟩ : ∃ r u, x.evaluate 3 (some data) .empty = (some r, u) :=
    ⟨_, _, by with_unfolding_all rfl⟩
  have hends := Expression.terminates_of_evaluate hrun
  have hiff := terminates_iff x rfl hglobals hdata .empty
  exact ⟨x, rfl, rfl, hglobals, hdata, hends, hiff.1 hends⟩

namespace Code

/-- A call of what a name stands for, which is its own argument. -/
def selfCall (name : String) : Code → Bool
  | .call _ (.lookup _ callee) [some (.lookup _ argument)] => callee == name && argument == name
  | _ => false

/-- A lambda that calls its argument so, given another one. -/
def selfApplication : Code → Bool
  | .call _ (.lambda [p] body) [some (.lambda [q] body')] => body.selfCall p && body'.selfCall q
  | _ => false

theorem exec_selfCall (call : Caller Code) {env : Env} {name : String} {v : Value}
    (hname : env.scope.lookup? name = some v) {body : Code} (hbody : body.selfCall name = true) :
    ∃ site, body.exec call env = Eval.callThrough call site env.context v (some [v]) := by
  unfold selfCall at hbody
  split at hbody
  · rename_i site first callee second argument
    obtain ⟨hcallee, hargument⟩ := Bool.and_eq_true_iff.1 hbody
    obtain rfl := eq_of_beq hcallee
    obtain rfl := eq_of_beq hargument
    refine ⟨site, ?_⟩
    simp only [exec, execItems, Eval.lookup, hname, pure_bind]
  · cases hbody

end Code

def SelfCalling (w : Store Code Nat) (h : Nat) : Prop :=
  ∃ p body env, w.functions[h]? = some (.lambda [p] body env) ∧ body.selfCall p = true ∧
    env.context.policy = .standard

theorem callThrough_cut {call : Caller Code} {site : Nat} {c : Context} (hc : c.policy = .standard)
    {f : Value} {vs : List Value} {w : Store Code Nat}
    (hcut : ((call f vs).run { w with events := .call f (some vs) :: w.events }).1 = none) :
    ((Eval.callThrough call site c f (some vs)).run w).1 = none := by
  rw [callThrough_standard call site hc]
  change ((Eval.within site (call f vs)).run
    { w with events := .call f (some vs) :: w.events }).1 = none
  rw [Eval.within_apply]
  exact congrArg (Option.map _) hcut

/-- Each call leads to the next one, a level further down. -/
theorem caller_selfCalling (depth : Nat) {w : Store Code Nat} {f g : Nat} (hf : SelfCalling w f)
    (hg : SelfCalling w g) :
    ((Code.caller depth (.function f) [.function g]).run w).1 = none := by
  induction depth generalizing w f with
  | zero => rfl
  | succ d ih =>
    obtain ⟨p, body, env, hc, hbody, hpolicy⟩ := hf
    have hname : (env.bind [p] [.function g]).scope.lookup? p = some (.function g) := by
      rw [Env.lookup?_bind, List.idxOf?_cons, if_pos (beq_self_eq_true p)]
      rfl
    have hcontext : (env.bind [p] [.function g]).context.policy = .standard := by
      rw [Env.bind_context, hpolicy]
    obtain ⟨site, hexec⟩ := Code.exec_selfCall (Code.caller d) hname hbody
    rw [Code.caller, Eval.call_function _ d f _ hc]
    change ((body.exec (Code.caller d) (env.bind [p] [.function g])).run w).1 = none
    rw [hexec]
    exact callThrough_cut hcontext (ih hg hg)

/-- Such a call goes on forever. -/
theorem evaluate_selfApplication {x : Expression} (hp : x.options.policy = .standard)
    (hx : x.code.selfApplication = true) (depth : Nat) (data : Option Value)
    (w : Store Code Nat) : (x.evaluate depth data w).1 = none := by
  suffices ((x.code.exec (Code.caller depth) (x.env data)).run w).1 = none from
    congrArg (Option.map (Except.mapError x.explain)) this
  generalize x.code = c at hx ⊢
  unfold Code.selfApplication at hx
  split at hx
  · rename_i site p body q body'
    obtain ⟨hbody, hbody'⟩ := Bool.and_eq_true_iff.1 hx
    let first : Callable Code Nat := .lambda [p] body (x.env data)
    let second : Callable Code Nat := .lambda [q] body' (x.env data)
    let u : Store Code Nat := ((w.addFunction first).2.addFunction second).2
    have hfirst : u.functions[w.functions.size]? = some first :=
      (Store.grows_addFunction _ second).functions Array.getElem?_push_size
    have hsecond : u.functions[(w.functions.push first).size]? = some second :=
      Array.getElem?_push_size
    change ((Eval.callThrough (Code.caller depth) site (x.env data).context
      (.function w.functions.size) (some [.function (w.functions.push first).size])).run u).1 = none
    exact callThrough_cut hp (caller_selfCalling depth ⟨p, body, _, hfirst, hbody, hp⟩
      ⟨q, body', _, hsecond, hbody', hp⟩)
  · cases hx

theorem Expression.options_compile {source : String} {options : Options} {x : Expression}
    (hx : compile source options = .ok x) : x.options = options := by
  unfold compile at hx
  split at hx
  · rw [ofTree_eq_ok hx]
  · split at hx <;> cases hx

/-- `x => x(x)`, applied to itself. -/
theorem self_application_unending :
    ∃ x, Expression.compile "(x => x(x))(x => x(x))" .standard = .ok x ∧
      ∀ data w, ¬ x.Terminates data w ∧ ∀ depth, (x.evaluate depth data w).1 = none := by
  have hcompile : (match Expression.compile "(x => x(x))(x => x(x))" .standard with
      | .ok x => x.code.selfApplication
      | .error _ => false) = true := by
    decide +kernel
  split at hcompile
  · rename_i x hx
    have hp : x.options.policy = .standard :=
      congrArg Options.policy (Expression.options_compile hx)
    have hnone := evaluate_selfApplication hp hcompile
    refine ⟨x, hx, fun data w => ⟨?_, fun depth => hnone depth data w⟩⟩
    rintro ⟨depth, r, u, hrun⟩
    have hdepth := hnone depth data w
    rw [hrun depth (Nat.le_refl depth)] at hdepth
    cases hdepth
  · cases hcompile

end ExprLang
