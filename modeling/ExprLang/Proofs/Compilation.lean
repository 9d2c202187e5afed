import ExprLang.Expr.Evaluation
import ExprLang.Expression
import ExprLang.Proofs.Calls
import ExprLang.Proofs.Congruence
import ExprLang.Proofs.Simulation
import ExprLang.Proofs.Suppliers

/-!
Compiling keeps the meaning of trees. A run of trees and the run of their code go side by side, the
functions of the one holding trees where those of the other hold the code of these trees.
-/
namespace ExprLang

open ExprLang.Expr

variable {α δ : Type}

def Placed.code (p : Placed) : Code := p.tree.compile p.start

def Callable.code : Callable Placed Nat → Callable Code Nat
  | .host name f => .host name f
  | .lambda parameters body env => .lambda parameters body.code env
  | .curried site context callee slots => .curried site context callee slots

def Store.code (w : Store Placed Nat) : Store Code Nat := w.map Callable.code

abbrev SameRun (α : Type) : Run Placed Nat α → Run Code Nat α → Prop :=
  Run.Simulates Callable.code (fun _ => True) Eq

theorem congruence_sameRun : Congruence SameRun where
  pure _ := Run.Simulates.pure rfl
  bind h k := h.bind fun a _ e => e ▸ k a
  note := Run.Simulates.note
  reference := Run.Simulates.reference
  load := Run.Simulates.load
  save := Run.Simulates.save
  host _ _ := Run.Simulates.newFunction trivial rfl
  curried _ _ _ _ := Run.Simulates.newFunction trivial rfl

abbrev Same (m : Eval Placed α) (n : Eval Code α) : Prop := Lifted SameRun m n

theorem option_rel_eq {a b : Option α} (h : Option.Rel Eq a b) : a = b := by
  cases h with
  | none => rfl
  | some h => rw [h]

namespace Same

theorem pure (a : α) : Same (Pure.pure a) (Pure.pure a) := congruence_sameRun.done a

theorem bind {m : Eval Placed α} {n : Eval Code α} {f : α → Eval Placed δ} {g : α → Eval Code δ}
    (h : Same m n) (k : ∀ a, Same (f a) (g a)) : Same (m >>= f) (n >>= g) :=
  congruence_sameRun.andThen h k

/-- From corresponding stores they give the same outcome, none if calls were nested too deeply, and
leave corresponding stores. -/
theorem run_eq {m : Eval Placed α} {n : Eval Code α} (h : Same m n) (w : Store Placed Nat) :
    n.run w.code = ((m.run w).1, (m.run w).2.code) := by
  obtain ⟨hr, hs, -⟩ := h w fun _ _ => trivial
  exact Prod.ext (option_rel_eq hr).symm hs

end Same

theorem compileStages_optionals (ss : List (Stage Expr)) (start : Nat) :
    (compileStages ss start).map (·.1) = ss.map (·.optional) := by
  induction ss generalizing start with
  | nil => rfl
  | cons s ss ih => simp only [compileStages, List.map_cons, ih]

theorem exec_plainKey (call : Caller Code) (env : Env) (e : Expr) :
    e.plainKey.exec call env = pure e.plainValue := by
  cases e <;> rfl

variable {call : Caller Placed} {call' : Caller Code}

mutual

theorem same_compile (hcall : ∀ f vs, Same (call f vs) (call' f vs))
    (env : Env) : ∀ (e : Expr) (start : Nat),
    Same (e.eval call env start) ((e.compile start).exec call' env)
  | .literal _ l, _ => Same.pure _
  | .identifier _ name, _ => congruence_sameRun.lookup hcall _ env name
  | .topic _, _ => congruence_sameRun.claim _ _
  | .unary _ op argument, _ => by
    refine Same.bind (same_compile hcall env argument _) fun v => ?_
    exact congruence_sameRun.unary hcall _ env op v
  | .binary _ op left right, _ => by
    refine Same.bind (same_compile hcall env left _) fun a => ?_
    refine Same.bind (same_compile hcall env right _) fun b => ?_
    exact congruence_sameRun.binary hcall _ env op a b
  | .logical _ op left right, _ => by
    refine Same.bind (congruence_sameRun.noted _) fun _ => ?_
    refine congruence_sameRun.within _ (congruence_sameRun.act hcall (fun side _ => ?_) _)
    cases side with
    | left => exact same_compile hcall env left _
    | right => exact same_compile hcall env right _
  | .coalesce _ left right, _ => by
    refine Same.bind (same_compile hcall env left _) fun v => ?_
    split
    · exact same_compile hcall env right _
    · exact Same.pure v
  | .conditional _ test consequent alternate, _ => by
    refine Same.bind (same_compile hcall env test _) fun v => ?_
    refine Same.bind (congruence_sameRun.truthy hcall env v) fun b => ?_
    cases b with
    | true => exact same_compile hcall env consequent _
    | false => exact same_compileAlternate hcall env alternate _
  | .object _ properties, _ => by
    refine Same.bind (same_compileProperties hcall env properties _) fun es => ?_
    exact Same.bind (congruence_sameRun.lift congruence_sameRun.reference) fun r => Same.pure _
  | .array _ elements, _ => by
    refine Same.bind (same_compileElements hcall env elements _) fun vs => ?_
    exact Same.bind (congruence_sameRun.lift congruence_sameRun.reference) fun r => Same.pure _
  | .member _ target key true _, _ => by
    refine Same.bind (same_compile hcall env target _) fun t => ?_
    refine Same.bind (same_compile hcall env key _) fun k => ?_
    exact congruence_sameRun.property hcall _ env t k
  | .member _ target key false _, _ => by
    refine Same.bind (same_compile hcall env target _) fun t => ?_
    refine Same.bind ?_ fun k => congruence_sameRun.property hcall _ env t k
    rw [if_neg Bool.false_ne_true, exec_plainKey]
    exact Same.pure _
  | .call _ callee arguments, start => by
    simp only [Expr.eval, Expr.compile]
    by_cases hnil : arguments.isEmpty
    · rw [if_pos hnil, if_pos hnil]
      refine Same.bind (same_compile hcall env callee _) fun f => ?_
      exact congruence_sameRun.callThrough hcall _ env.context f none
    rw [if_neg hnil, if_neg hnil]
    by_cases hmissing : arguments.any (·.isPlaceholder)
    · simp only [if_pos hmissing]
      refine Same.bind (same_compile hcall env callee _) fun f => ?_
      refine Same.bind (same_compileSlots hcall env arguments 0 _) fun slots => ?_
      exact congruence_sameRun.lift (congruence_sameRun.curried _ env.context f slots)
    · simp only [if_neg hmissing]
      refine Same.bind (same_compile hcall env callee _) fun f => ?_
      exact same_compileArguments hcall env arguments 0 _ (Bool.eq_false_iff.2 hmissing) fun vs =>
        congruence_sameRun.callThrough hcall _ env.context f (some vs)
  | .pipe _ head stages, _ => by
    simp only [Expr.eval, Expr.compile, Code.exec, compileStages_optionals]
    refine Same.bind (same_compile hcall env head _) fun v => ?_
    refine Same.bind (congruence_sameRun.noted _) fun _ => ?_
    refine congruence_sameRun.within _ (congruence_sameRun.act hcall (fun i v => ?_) _)
    exact same_compileStages hcall env stages _ i v
  | .lambda _ parameters body, _ =>
    congruence_sameRun.lift (Run.Simulates.newFunction trivial rfl)
  | .letIn _ declarations body, _ =>
    same_compileDeclarations hcall env declarations _ fun env => same_compile hcall env body _

theorem same_compileAlternate (hcall : ∀ f vs, Same (call f vs) (call' f vs))
    (env : Env) : ∀ (e : Option Expr) (start : Nat),
    Same (evalAlternate call env e start) ((compileAlternate e start).exec call' env)
  | none, _ => Same.pure _
  | some e, start => same_compile hcall env e start

theorem same_compileProperties (hcall : ∀ f vs, Same (call f vs) (call' f vs))
    (env : Env) : ∀ (ps : List (Property Expr)) (start : Nat),
    Same (evalProperties call env ps start)
      (Code.execEntries call' env (compileProperties ps start))
  | [], _ => Same.pure _
  | ⟨_, value, _⟩ :: ps, _ => by
    refine Same.bind (same_compile hcall env value _) fun v => ?_
    exact Same.bind (same_compileProperties hcall env ps _) fun vs => Same.pure _

theorem same_compileElements (hcall : ∀ f vs, Same (call f vs) (call' f vs))
    (env : Env) : ∀ (es : List (Option Expr)) (start : Nat),
    Same (evalElements call env es start) (Code.execItems call' env (compileElements es start))
  | [], _ => Same.pure _
  | none :: es, _ => Same.bind (same_compileElements hcall env es _) fun vs => Same.pure _
  | some e :: es, _ => by
    refine Same.bind (same_compile hcall env e _) fun v => ?_
    exact Same.bind (same_compileElements hcall env es _) fun vs => Same.pure _

/-- Arguments none of which is missing, and what is done with their values. -/
theorem same_compileArguments (hcall : ∀ f vs, Same (call f vs) (call' f vs))
    (env : Env) : ∀ (as : List (Argument Expr)) (i start : Nat),
    as.any (·.isPlaceholder) = false →
    ∀ {k : List Value → Eval Placed Value} {k' : List Value → Eval Code Value},
    (∀ vs, Same (k vs) (k' vs)) →
    Same (do k ((← evalArguments call env as i start).filterMap id))
      (do k' (← Code.execItems call' env (compileArguments as i start)))
  | [], _, _, _, _, _, hk => hk []
  | .value e :: as, i, _, h, _, _, hk => by
    simp only [evalArguments, evalArgument, compileArguments, compileArgument, Code.execItems,
      bind_assoc, pure_bind]
    refine Same.bind (same_compile hcall env e _) fun v => ?_
    exact same_compileArguments hcall env as (i + 1) _ h fun vs => hk (v :: vs)
  | .placeholder _ :: _, _, _, h, _, _, _ => by cases h

theorem same_compileSlots (hcall : ∀ f vs, Same (call f vs) (call' f vs))
    (env : Env) : ∀ (as : List (Argument Expr)) (i start : Nat),
    Same (evalArguments call env as i start)
      (Code.execSlots call' env (compileArguments as i start))
  | [], _, _ => Same.pure _
  | .value e :: as, i, _ => by
    simp only [evalArguments, evalArgument, bind_assoc, pure_bind]
    refine Same.bind (same_compile hcall env e _) fun v => ?_
    exact Same.bind (same_compileSlots hcall env as (i + 1) _) fun vs => Same.pure _
  | .placeholder _ :: as, i, _ =>
    Same.bind (same_compileSlots hcall env as (i + 1) _) fun vs => Same.pure _

theorem same_compileStages (hcall : ∀ f vs, Same (call f vs) (call' f vs))
    (env : Env) : ∀ (ss : List (Stage Expr)) (start i : Nat) (v : Value),
    Same (evalStage call env ss start i v)
      (Code.execStage call' env (compileStages ss start) i v)
  | [], _, _, v => Same.pure v
  | ⟨_, body⟩ :: _, _, 0, _ => same_compile hcall _ body _
  | ⟨_, _⟩ :: ss, _, i + 1, v => same_compileStages hcall env ss _ i v

theorem same_compileDeclarations (hcall : ∀ f vs, Same (call f vs) (call' f vs))
    {body : Env → Eval Placed Value} {code : Code} (env : Env) :
    ∀ (ds : List (Declaration Expr)) (start : Nat),
    (∀ env, Same (body env) (code.exec call' env)) →
    Same (do body (← evalDeclarations call env ds start))
      ((compileDeclarations ds start code).exec call' env)
  | [], _, h => h env
  | ⟨_, init, _⟩ :: ds, _, h => by
    simp only [evalDeclarations, bind_assoc]
    refine Same.bind (same_compile hcall env init _) fun v => ?_
    exact same_compileDeclarations hcall _ ds _ h

end

theorem Same.ofFunction {h : Nat} {k : Option (Callable Placed Nat) → Eval Placed α}
    {k' : Option (Callable Code Nat) → Eval Code α} (hk : ∀ o, Same (k o) (k' (o.map (·.code)))) :
    Same (do k (← Eval.callable? h)) (do k' (← Eval.callable? h)) := by
  change SameRun _ (ExceptT.run _) (ExceptT.run _)
  rw [Eval.callable?, Eval.callable?, ExceptT.run_bind_lift, ExceptT.run_bind_lift]
  refine (Run.Simulates.callable? h).bind fun o o' ho => ?_
  rw [ho.1]
  exact hk o

theorem same_enter (hcall : ∀ f vs, Same (call f vs) (call' f vs)) (h : Nat) (vs : List Value) :
    ∀ c : Callable Placed Nat,
      Same (Eval.enter Placed.run call h vs c) (Eval.enter Code.run call' h vs c.code)
  | .host name f => by
    refine Same.bind (congruence_sameRun.noted _) fun _ => ?_
    exact congruence_sameRun.act hcall (fun i => nomatch i) _
  | .lambda names body env => same_compile hcall (env.bind names vs) body.tree body.start
  | .curried site context callee slots => congruence_sameRun.callThrough hcall site context callee _

theorem same_call (depth : Nat) (f : Value) (vs : List Value) :
    Same (Placed.caller depth f vs) (Code.caller depth f vs) := by
  induction depth generalizing f vs with
  | zero => exact congruence_sameRun.lift Run.Simulates.tooDeep
  | succ n ih =>
    cases f with
    | function h =>
      refine Same.ofFunction fun o => ?_
      cases o with
      | none => exact congruence_sameRun.throw _
      | some c => exact same_enter ih h vs c
    | _ => exact congruence_sameRun.throw _

namespace Expr

def evaluate (tree : Expr) (options : Options) (depth : Nat) (data : Option Value)
    (w : Store Placed Nat) : Option (Except Fault Value) × Store Placed Nat :=
  (Placed.eval depth (.ofContext ⟨options.policy, options.globals, data⟩) ⟨tree, 0⟩).run w

end Expr

namespace Expression

theorem ofTree_eq_ok {tree : Expr} {source : String} {options : Options} {x : Expression}
    (hx : ofTree tree source options = .ok x) :
    x = ⟨source, tree.layout, tree.compile 0, options⟩ := by
  unfold ofTree at hx
  split at hx
  · cases hx
  · exact (Except.ok.inj hx).symm

theorem code_ofTree {tree : Expr} {source : String} {options : Options} {x : Expression}
    (hx : ofTree tree source options = .ok x) : x.code = tree.compile 0 := by
  rw [ofTree_eq_ok hx]

theorem env_ofTree {tree : Expr} {source : String} {options : Options} {x : Expression}
    (hx : ofTree tree source options = .ok x) (data : Option Value) :
    x.env data = .ofContext ⟨options.policy, options.globals, data⟩ := by
  rw [ofTree_eq_ok hx]
  rfl

end Expression

/-- A compiled tree and the tree itself, evaluated in corresponding stores, have the same outcome,
ask the policy and the host the same questions in the same order, and leave corresponding stores;
so do later calls of the functions they made. In the run of trees a lambda runs where it was made
with its arguments bound by position, a call made with placeholders passes its arguments in order,
and the standard policy has operands and stages evaluated only as they are needed. -/
theorem evaluate_compiled {tree : Expr} {source : String} {options : Options} {x : Expression}
    (hx : Expression.ofTree tree source options = .ok x) :
    (∀ depth data w,
      (x.evaluate depth data w.code).1 =
          (tree.evaluate options depth data w).1.map (·.mapError x.explain) ∧
        (x.evaluate depth data w.code).2.events = (tree.evaluate options depth data w).2.events ∧
        (x.evaluate depth data w.code).2 = (tree.evaluate options depth data w).2.code) ∧
    (∀ depth f vs (w : Store Placed Nat),
      (Code.caller depth f vs).run w.code =
        (((Placed.caller depth f vs).run w).1, ((Placed.caller depth f vs).run w).2.code)) ∧
    (∀ depth h names body env vs (w : Store Placed Nat),
      w.functions[h]? = some (.lambda names body env) →
        ∃ inner, env.Binds names vs inner ∧
          (Placed.caller (depth + 1) (.function h) vs).run w = (body.eval depth inner).run w) ∧
    (∀ depth h site context callee slots vs (w : Store Placed Nat),
      w.functions[h]? = some (.curried site context callee slots) →
        ∃ arguments, Eval.Fills slots vs arguments ∧
          (Placed.caller (depth + 1) (.function h) vs).run w =
            (Eval.callThrough (Placed.caller depth) site context callee (some arguments)).run w) ∧
    (∀ op call supply a (w u : Store Placed Nat),
      (Policy.standard.logical op).perform call supply w = (some a, u) →
        ∃ ps, Supplies supply ps w u ∧ Policy.Standard.ShortCircuits op ps a) ∧
    (∀ head optionals call supply a (w u : Store Placed Nat),
      (Policy.standard.pipe head optionals).perform call supply w = (some a, u) →
        ∃ ps, Supplies supply ps w u ∧ Policy.Standard.RunsInOrder optionals 0 head ps a) := by
  refine ⟨fun depth data w => ?_, fun depth f vs w => (same_call depth f vs).run_eq w,
    fun depth h names body env vs w hc => ?_, fun depth h site context callee slots vs w hc => ?_,
    fun op call supply a w u ha => Policy.Standard.perform_logical ha,
    fun head optionals call supply a w u ha => Policy.Standard.perform_pipe ha⟩
  · have hrun := (same_compile (same_call depth) (x.env data) tree 0).run_eq w
    unfold Expression.evaluate Expr.evaluate Code.eval Code.run
    rw [Expression.code_ofTree hx, ← Expression.env_ofTree hx data]
    have hout := congrArg (Prod.map (Option.map (Except.mapError x.explain)) id) hrun
    exact ⟨congrArg Prod.fst hout, congrArg (·.2.events) hout, congrArg Prod.snd hout⟩
  · exact ⟨_, env.binds_bind names vs, Eval.call_function _ depth h vs hc⟩
  · exact ⟨_, Eval.fills_fill slots vs, Eval.call_function _ depth h vs hc⟩

/-- Two parameters and one argument: `((x, y) => [x, y])(null)`. -/
theorem evaluate_compiled_application :
    let tree : Expr := .call default (.lambda default [⟨"x", default⟩, ⟨"y", default⟩]
      (.array default [some (.identifier default "x"), some (.identifier default "y")]))
      [.value (.literal default .null)]
    ∃ x, Expression.ofTree tree "" .standard = .ok x ∧ ∀ depth data w,
      (x.evaluate depth data w.code).1 =
          (tree.evaluate .standard depth data w).1.map (·.mapError x.explain) ∧
        (x.evaluate depth data w.code).2.events = (tree.evaluate .standard depth data w).2.events ∧
        (x.evaluate depth data w.code).2 = (tree.evaluate .standard depth data w).2.code :=
  ⟨_, rfl, (evaluate_compiled rfl).1⟩

end ExprLang
