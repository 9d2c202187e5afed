import ExprLang.Proofs.Compilation
import ExprLang.Proofs.Scoping.Probes

/-!
A probe that is silent in the environments of a position changes nothing. Whatever a probed run
evaluates, it evaluates in an environment of its position, so it does what the run without the probe
does, and the lambdas it makes keep such environments.
-/
namespace ExprLang

open ExprLang.Expr Listing

variable {α δ : Type}

def Spot.placed (s : Spot) : Placed := ⟨s.tree, s.start⟩

namespace Callable

def placedSpot : Callable Spot Nat → Callable Placed Nat
  | .host name f => .host name f
  | .lambda parameters body env => .lambda parameters body.placed env
  | .curried site context callee slots => .curried site context callee slots

/-- Whatever a lambda is called with, its body is evaluated in an environment of its position. -/
def Lexical : Callable Spot Nat → Prop
  | .lambda parameters body env => ∀ vs, body.Encloses (env.bind parameters vs)
  | _ => True

end Callable

namespace Store

def placedSpots (w : Store Spot Nat) : Store Placed Nat := w.map Callable.placedSpot

end Store

abbrev ProbedRun (α : Type) : Run Spot Nat α → Run Placed Nat α → Prop :=
  Run.Simulates Callable.placedSpot Callable.Lexical Eq

theorem congruence_probedRun : Congruence ProbedRun where
  pure _ := Run.Simulates.pure rfl
  bind h k := h.bind fun a _ e => e ▸ k a
  note := Run.Simulates.note
  reference := Run.Simulates.reference
  load := Run.Simulates.load
  save := Run.Simulates.save
  host _ _ := Run.Simulates.newFunction trivial rfl
  curried _ _ _ _ := Run.Simulates.newFunction trivial rfl

/-- A probed computation does what the other does, and leaves lambdas that keep environments of
their positions. -/
abbrev Probed (m : Eval Spot α) (n : Eval Placed α) : Prop := Lifted ProbedRun m n

namespace Probed

theorem pure (a : α) : Probed (Pure.pure a) (Pure.pure a) := congruence_probedRun.done a

theorem bind {m : Eval Spot α} {n : Eval Placed α} {f : α → Eval Spot δ} {g : α → Eval Placed δ}
    (h : Probed m n) (k : ∀ a, Probed (f a) (g a)) : Probed (m >>= f) (n >>= g) :=
  congruence_probedRun.andThen h k

theorem run_eq {m : Eval Spot α} {n : Eval Placed α} (h : Probed m n) {w : Store Spot Nat}
    (hw : w.All Callable.Lexical) :
    n.run w.placedSpots = ((m.run w).1, (m.run w).2.placedSpots) ∧
      (m.run w).2.All Callable.Lexical := by
  obtain ⟨hr, hs, hall⟩ := h w hw
  exact ⟨Prod.ext (option_rel_eq hr).symm hs, hall⟩

end Probed

/-- The expressions are children of the node at a post from the one with the number `i` on, and the
environment is one of their positions. -/
def Post.Covers (p : Post) (env : Env) (i : Nat) (cs : List Expr) : Prop :=
  ∀ k c, cs[k]? = some c → ∀ start, Spot.Encloses ⟨p.child (i + k), c, start⟩ env

namespace Post.Covers

variable {p : Post} {env : Env} {i : Nat} {c : Expr} {cs : List Expr}

theorem head (h : p.Covers env i (c :: cs)) (start : Nat) :
    Spot.Encloses ⟨p.child i, c, start⟩ env := h 0 c rfl start

theorem tail (h : p.Covers env i (c :: cs)) : p.Covers env (i + 1) cs := fun k d hd start => by
  rw [Nat.add_right_comm]
  exact h (k + 1) d hd start

end Post.Covers

namespace Spot.Encloses

variable {p : Post} {e c : Expr} {start : Nat} {env inner : Env} {i : Nat}

theorem child (h : Encloses ⟨p, e, start⟩ env) (hc : e.children[i]? = some c)
    (hnames : inner.scope.map (·.names) = e.framesAround i ++ env.scope.map (·.names))
    (hcontext : inner.context = env.context) (first : Nat) :
    Encloses ⟨p.child i, c, first⟩ inner where
  node := at?_concat h.node hc
  names := by
    rw [hnames, h.names]
    exact (framesAt_concat h.node).symm
  context := hcontext.trans h.context

/-- A node that puts no frames around its children. -/
theorem covers (h : Encloses ⟨p, e, start⟩ env) (hframes : ∀ i, e.framesAround i = []) :
    p.Covers env 0 e.children := fun k c hc first => by
  rw [Nat.zero_add]
  refine h.child hc ?_ rfl first
  rw [hframes, List.nil_append]

theorem parameter {span : Span} {parameters : List Name} {body : Expr}
    (h : Encloses ⟨p, .lambda span parameters body, start⟩ env) (first : Nat) (vs : List Value) :
    Encloses ⟨p.child 0, body, first⟩ (env.bind (parameters.map (·.text)) vs) := by
  refine h.child rfl ?_ (env.bind_context _ vs) first
  unfold framesAround Env.bind
  cases parameters <;> rfl

theorem stages {span : Span} {head : Expr} {ss : List (Stage Expr)}
    (h : Encloses ⟨p, .pipe span head ss, start⟩ env) (v : Value) :
    p.Covers (env.push ⟨[topicName], [v]⟩) 1 (ss.map (·.body)) := by
  intro k c hc first
  have hget : (Expr.pipe span head ss).children[1 + k]? = some c := by
    rw [Nat.add_comm]
    exact hc
  have hnames : (env.push ⟨[topicName], [v]⟩).scope.map (·.names) =
      (Expr.pipe span head ss).framesAround (1 + k) ++ env.scope.map (·.names) := by
    rw [framesAround, if_neg (by omega)]
    rfl
  exact h.child hget hnames rfl first

end Spot.Encloses

/-- An environment inside a binding, after the first `i` declarations and before the others. -/
structure Post.Declared (p : Post) (b : Expr) (all : List (Declaration Expr)) (outer : Env)
    (i : Nat) (ds : List (Declaration Expr)) (env : Env) : Prop where
  drop_eq : all.drop i = ds
  length_eq : i + ds.length = all.length
  names : env.scope.map (·.names) = b.framesAround i ++ outer.scope.map (·.names)
  context : env.context = outer.context

namespace Post.Declared

variable {p : Post} {span : Span} {all ds : List (Declaration Expr)} {d : Declaration Expr}
  {body : Expr} {start i : Nat} {outer env : Env}

theorem zero : p.Declared (.letIn span all body) all outer 0 all outer :=
  ⟨List.drop_zero, Nat.zero_add _, rfl, rfl⟩

theorem succ (h : p.Declared (.letIn span all body) all outer i (d :: ds) env) (v : Value) :
    p.Declared (.letIn span all body) all outer (i + 1) ds (env.push ⟨[d.name.text], [v]⟩) where
  drop_eq := by rw [← List.drop_drop, h.drop_eq, List.drop_one, List.tail_cons]
  length_eq := by
    rw [← h.length_eq, List.length_cons]
    omega
  names := by
    have hd : all[i]? = some d := by rw [← List.head?_drop, h.drop_eq, List.head?_cons]
    rw [Env.push, List.map_cons, h.names, framesAround, framesAround, List.take_add_one, hd,
      List.map_append, List.reverse_append]
    rfl
  context := h.context

theorem init (h : p.Declared (.letIn span all body) all outer i (d :: ds) env)
    (hp : Spot.Encloses ⟨p, .letIn span all body, start⟩ outer) (first : Nat) :
    Spot.Encloses ⟨p.child i, d.init, first⟩ env := by
  have hd : all[i]? = some d := by rw [← List.head?_drop, h.drop_eq, List.head?_cons]
  refine hp.child ?_ h.names h.context first
  rw [children, List.getElem?_append_left, List.getElem?_map, hd, Option.map_some]
  rw [List.length_map]
  exact (List.getElem?_eq_some_iff.1 hd).1

theorem last (h : p.Declared (.letIn span all body) all outer i [] env)
    (hp : Spot.Encloses ⟨p, .letIn span all body, start⟩ outer) (first : Nat) :
    Spot.Encloses ⟨p.child all.length, body, first⟩ env := by
  obtain rfl : i = all.length := h.length_eq
  refine hp.child ?_ h.names h.context first
  rw [children, List.getElem?_append_right (by simp), List.length_map, Nat.sub_self]
  rfl

end Post.Declared

variable {probe : Probe} {call : Caller Spot} {call' : Caller Placed}

/-- Past a probe that is silent. -/
theorem Probed.past (hprobe : probe.Silent) {s : Spot} {env : Env} (hs : s.Encloses env)
    {m : Eval Spot α} {n : Eval Placed α} (h : Probed m n) :
    Probed (do probe s env; m) n := by
  rw [hprobe s env hs, pure_bind]
  exact h

mutual

theorem probed_eval (hprobe : probe.Silent) (hcall : ∀ f vs, Probed (call f vs) (call' f vs))
    {p : Post} {env : Env} : ∀ (e : Expr) (start : Nat), Spot.Encloses ⟨p, e, start⟩ env →
    Probed (e.probed probe call p env start) (e.eval call' env start)
  | .literal .., _, h => .past hprobe h (.pure _)
  | .identifier _ name, _, h => .past hprobe h (congruence_probedRun.lookup hcall _ env name)
  | .topic _, _, h => .past hprobe h (congruence_probedRun.claim _ _)
  | .unary _ op argument, _, h => .past hprobe h <| by
    have hc : p.Covers env 0 [argument] := h.covers fun _ => rfl
    refine Probed.bind (probed_eval hprobe hcall argument _ (hc.head _)) fun v => ?_
    exact congruence_probedRun.unary hcall _ env op v
  | .binary _ op left right, _, h => .past hprobe h <| by
    have hc : p.Covers env 0 [left, right] := h.covers fun _ => rfl
    refine Probed.bind (probed_eval hprobe hcall left _ (hc.head _)) fun a => ?_
    refine Probed.bind (probed_eval hprobe hcall right _ (hc.tail.head _)) fun b => ?_
    exact congruence_probedRun.binary hcall _ env op a b
  | .logical _ op left right, _, h => .past hprobe h <| by
    have hc : p.Covers env 0 [left, right] := h.covers fun _ => rfl
    refine Probed.bind (congruence_probedRun.noted _) fun _ => ?_
    refine congruence_probedRun.within _ (congruence_probedRun.act hcall (fun side _ => ?_) _)
    cases side with
    | left => exact probed_eval hprobe hcall left _ (hc.head _)
    | right => exact probed_eval hprobe hcall right _ (hc.tail.head _)
  | .coalesce _ left right, _, h => .past hprobe h <| by
    have hc : p.Covers env 0 [left, right] := h.covers fun _ => rfl
    refine Probed.bind (probed_eval hprobe hcall left _ (hc.head _)) fun v => ?_
    split
    · exact probed_eval hprobe hcall right _ (hc.tail.head _)
    · exact Probed.pure v
  | .conditional _ test consequent alternate, _, h => .past hprobe h <| by
    have hc : p.Covers env 0 (test :: consequent :: alternate.toList) := h.covers fun _ => rfl
    refine Probed.bind (probed_eval hprobe hcall test _ (hc.head _)) fun v => ?_
    refine Probed.bind (congruence_probedRun.truthy hcall env v) fun b => ?_
    cases b with
    | true => exact probed_eval hprobe hcall consequent _ (hc.tail.head _)
    | false => exact probed_evalAlternate hprobe hcall alternate _ hc.tail.tail
  | .object _ properties, _, h => .past hprobe h <| by
    have hc : p.Covers env 0 (properties.map (·.value)) := h.covers fun _ => rfl
    refine Probed.bind (probed_evalProperties hprobe hcall properties _ _ hc) fun es => ?_
    exact Probed.bind (congruence_probedRun.lift congruence_probedRun.reference) fun r =>
      Probed.pure _
  | .array _ elements, _, h => .past hprobe h <| by
    have hc : p.Covers env 0 (elements.filterMap id) := h.covers fun _ => rfl
    refine Probed.bind (probed_evalElements hprobe hcall elements _ _ hc) fun vs => ?_
    exact Probed.bind (congruence_probedRun.lift congruence_probedRun.reference) fun r =>
      Probed.pure _
  | .member _ target key true _, _, h => .past hprobe h <| by
    have hc : p.Covers env 0 [target, key] := h.covers fun _ => rfl
    refine Probed.bind (probed_eval hprobe hcall target _ (hc.head _)) fun t => ?_
    refine Probed.bind (probed_eval hprobe hcall key _ (hc.tail.head _)) fun k => ?_
    exact congruence_probedRun.property hcall _ env t k
  | .member _ target key false _, _, h => .past hprobe h <| by
    have hc : p.Covers env 0 [target, key] := h.covers fun _ => rfl
    refine Probed.bind (probed_eval hprobe hcall target _ (hc.head _)) fun t => ?_
    refine Probed.bind (Probed.pure _) fun k => ?_
    exact congruence_probedRun.property hcall _ env t k
  | .call _ callee arguments, start, h => .past hprobe h <| by
    have hc : p.Covers env 0 (callee :: arguments.filterMap (·.value?)) := h.covers fun _ => rfl
    simp only [Expr.eval]
    by_cases hnil : arguments.isEmpty
    · rw [if_pos hnil, if_pos hnil]
      refine Probed.bind (probed_eval hprobe hcall callee _ (hc.head _)) fun f => ?_
      exact congruence_probedRun.callThrough hcall _ env.context f none
    rw [if_neg hnil, if_neg hnil]
    by_cases hmissing : arguments.any (·.isPlaceholder)
    · simp only [if_pos hmissing]
      refine Probed.bind (probed_eval hprobe hcall callee _ (hc.head _)) fun f => ?_
      refine Probed.bind (probed_evalArguments hprobe hcall arguments _ 0 _ hc.tail) fun slots => ?_
      exact congruence_probedRun.lift (congruence_probedRun.curried _ env.context f slots)
    · simp only [if_neg hmissing]
      refine Probed.bind (probed_eval hprobe hcall callee _ (hc.head _)) fun f => ?_
      refine Probed.bind (probed_evalArguments hprobe hcall arguments _ 0 _ hc.tail) fun vs => ?_
      exact congruence_probedRun.callThrough hcall _ env.context f (some (vs.filterMap id))
  | .pipe _ head stages, _, h => .past hprobe h <| by
    have hhead : ∀ first, Spot.Encloses ⟨p.child 0, head, first⟩ env := h.child rfl rfl rfl
    refine Probed.bind (probed_eval hprobe hcall head _ (hhead _)) fun v => ?_
    refine Probed.bind (congruence_probedRun.noted _) fun _ => ?_
    refine congruence_probedRun.within _ (congruence_probedRun.act hcall (fun i v => ?_) _)
    exact probed_evalStage hprobe hcall stages _ _ i v h.stages
  | .lambda _ parameters body, _, h => .past hprobe h <|
    congruence_probedRun.lift (Run.Simulates.newFunction (h.parameter _) rfl)
  | .letIn _ declarations body, _, h => .past hprobe h <|
    probed_evalDeclarations hprobe hcall h declarations _ .zero fun env hd =>
      probed_eval hprobe hcall body _ (hd.last h _)

theorem probed_evalAlternate (hprobe : probe.Silent)
    (hcall : ∀ f vs, Probed (call f vs) (call' f vs)) {p : Post} {env : Env} :
    ∀ (e : Option Expr) (start : Nat), p.Covers env 2 e.toList →
    Probed (probedAlternate probe call p env e start) (evalAlternate call' env e start)
  | none, _, _ => .pure _
  | some e, _, hc => probed_eval hprobe hcall e _ (hc.head _)

theorem probed_evalProperties (hprobe : probe.Silent)
    (hcall : ∀ f vs, Probed (call f vs) (call' f vs)) {p : Post} {env : Env} :
    ∀ (ps : List (Property Expr)) (i start : Nat), p.Covers env i (ps.map (·.value)) →
    Probed (probedProperties probe call p env i ps start) (evalProperties call' env ps start)
  | [], _, _, _ => .pure _
  | ⟨_, value, _⟩ :: ps, _, _, hc => by
    refine Probed.bind (probed_eval hprobe hcall value _ (hc.head _)) fun v => ?_
    exact Probed.bind (probed_evalProperties hprobe hcall ps _ _ hc.tail) fun vs => Probed.pure _

theorem probed_evalElements (hprobe : probe.Silent)
    (hcall : ∀ f vs, Probed (call f vs) (call' f vs)) {p : Post} {env : Env} :
    ∀ (es : List (Option Expr)) (i start : Nat), p.Covers env i (es.filterMap id) →
    Probed (probedElements probe call p env i es start) (evalElements call' env es start)
  | [], _, _, _ => .pure _
  | none :: es, _, _, hc =>
    Probed.bind (probed_evalElements hprobe hcall es _ _ hc) fun vs => Probed.pure _
  | some e :: es, _, _, hc => by
    refine Probed.bind (probed_eval hprobe hcall e _ (hc.head _)) fun v => ?_
    exact Probed.bind (probed_evalElements hprobe hcall es _ _ hc.tail) fun vs => Probed.pure _

theorem probed_evalArguments (hprobe : probe.Silent)
    (hcall : ∀ f vs, Probed (call f vs) (call' f vs)) {p : Post} {env : Env} :
    ∀ (as : List (Argument Expr)) (i k start : Nat), p.Covers env i (as.filterMap (·.value?)) →
    Probed (probedArguments probe call p env i as k start) (evalArguments call' env as k start)
  | [], _, _, _, _ => .pure _
  | .value e :: as, _, _, _, hc => by
    simp only [evalArguments, evalArgument, bind_assoc, pure_bind]
    refine Probed.bind (probed_eval hprobe hcall e _ (hc.head _)) fun v => ?_
    exact Probed.bind (probed_evalArguments hprobe hcall as _ _ _ hc.tail) fun vs => Probed.pure _
  | .placeholder _ :: as, _, _, _, hc =>
    Probed.bind (probed_evalArguments hprobe hcall as _ _ _ hc) fun vs => Probed.pure _

theorem probed_evalStage (hprobe : probe.Silent)
    (hcall : ∀ f vs, Probed (call f vs) (call' f vs)) {p : Post} {env : Env} :
    ∀ (ss : List (Stage Expr)) (i start k : Nat) (v : Value),
    (∀ v, p.Covers (env.push ⟨[topicName], [v]⟩) i (ss.map (·.body))) →
    Probed (probedStage probe call p env i ss start k v) (evalStage call' env ss start k v)
  | [], _, _, _, v, _ => .pure v
  | ⟨_, body⟩ :: _, _, _, 0, v, hc => probed_eval hprobe hcall body _ ((hc v).head _)
  | ⟨_, _⟩ :: ss, _, _, k + 1, v, hc =>
    probed_evalStage hprobe hcall ss _ _ k v fun v => (hc v).tail

theorem probed_evalDeclarations (hprobe : probe.Silent)
    (hcall : ∀ f vs, Probed (call f vs) (call' f vs)) {p : Post} {span : Span}
    {all : List (Declaration Expr)} {last : Expr} {first : Nat} {outer env : Env}
    (h : Spot.Encloses ⟨p, .letIn span all last, first⟩ outer)
    {body : Env → Eval Spot Value} {body' : Env → Eval Placed Value} {i : Nat} :
    ∀ (ds : List (Declaration Expr)) (start : Nat),
    p.Declared (.letIn span all last) all outer i ds env →
    (∀ env, p.Declared (.letIn span all last) all outer all.length [] env →
      Probed (body env) (body' env)) →
    Probed (do body (← probedDeclarations probe call p env i ds start))
      (do body' (← evalDeclarations call' env ds start))
  | [], _, hd, hbody => by
    obtain rfl : i = all.length := hd.length_eq
    exact hbody _ hd
  | ⟨_, init, _⟩ :: ds, _, hd, hbody => by
    simp only [probedDeclarations, evalDeclarations, bind_assoc]
    refine Probed.bind (probed_eval hprobe hcall init _ (hd.init h _)) fun v => ?_
    exact probed_evalDeclarations hprobe hcall h ds _ (hd.succ v) hbody

end

theorem probed_enter (hprobe : probe.Silent) (hcall : ∀ f vs, Probed (call f vs) (call' f vs))
    (h : Nat) (vs : List Value) : ∀ c : Callable Spot Nat, c.Lexical →
      Probed (Eval.enter (Spot.run probe) call h vs c)
        (Eval.enter Placed.run call' h vs c.placedSpot)
  | .host _ f, _ => by
    refine Probed.bind (congruence_probedRun.noted _) fun _ => ?_
    exact congruence_probedRun.act hcall (fun i => nomatch i) _
  | .lambda _ body _, hc => probed_eval hprobe hcall body.tree body.start (hc vs)
  | .curried site context callee _, _ =>
    congruence_probedRun.callThrough hcall site context callee _

theorem probed_caller (hprobe : probe.Silent) (depth : Nat) (f : Value) (vs : List Value) :
    Probed (Spot.caller probe depth f vs) (Placed.caller depth f vs) := by
  induction depth generalizing f vs with
  | zero => exact congruence_probedRun.lift Run.Simulates.tooDeep
  | succ d ih =>
    cases f with
    | function h =>
      change ProbedRun _ (ExceptT.run _) (ExceptT.run _)
      simp only [Spot.caller, Placed.caller, Eval.call, Eval.callable?, ExceptT.run_bind_lift]
      refine (Run.Simulates.callable? h).bind fun o o' ho => ?_
      obtain ⟨rfl, hlexical⟩ := ho
      cases o with
      | none => exact congruence_probedRun.throw _
      | some c => exact probed_enter hprobe ih h vs c (hlexical c rfl)
    | _ => exact congruence_probedRun.throw _

end ExprLang
