import ExprLang.Proofs.Attribution.Blame
import ExprLang.Proofs.Attribution.Placement
import ExprLang.Proofs.Calls
import ExprLang.Proofs.Simulation

/-!
Attribution is exact. An evaluation that claims faults for sites on their way out puts a failure
down to the very node that a watched evaluation blames for it.
-/
namespace ExprLang

open ExprLang.Expr Listing
open Fragment (Within)

variable {α δ : Type}

/-- The site names, in the listing of the node's tree, a fragment that belongs to the node. -/
def Node.Marked (listings : Nat → List Fragment) (n : Node) : Prop :=
  ∃ f at', n.site = at' + 1 ∧ Within (listings n.owner) at' [f] ∧ f.text ≠ [] ∧ f.span = n.span

theorem Node.Marked.locate? {listings : Nat → List Fragment} {n : Node} (h : n.Marked listings)
    (hword : Fragment.size (listings n.owner) < SpanTable.wordSize) :
    (Fragment.table (listings n.owner)).locate? n.site = some n.span := by
  obtain ⟨f, at', hsite, hwithin, htext, hspan⟩ := h
  rw [hsite, Fragment.locate?_of_within hwithin htext hword, hspan]

namespace Policy

/-- Calls, pipes and logical operators are the standard ones, and no question to the policy makes a
function that names places. -/
structure Transparent (p : Policy) : Prop where
  call : p.call = Standard.call
  pipe : p.pipe = Standard.pipe
  logical : p.logical = Standard.logical
  truthy (v : Value) : (p.truthy v).All HostFunction.Plain fun _ => True
  property (t k : Value) : (p.property t k).All HostFunction.Plain fun _ => True
  resolve (name : String) (globals data : Option Value) :
    (p.resolve name globals data).All HostFunction.Plain fun _ => True
  unary (op : UnaryOp) (v : Value) : (p.unary op v).All HostFunction.Plain fun _ => True
  binary (op : BinaryOp) (a b : Value) : (p.binary op a b).All HostFunction.Plain fun _ => True

theorem transparent_standard : standard.Transparent where
  call := rfl
  pipe := rfl
  logical := rfl
  truthy _ := .answer trivial
  property _ _ := .answer trivial
  resolve _ _ _ := .answer trivial
  unary _ _ := .answer trivial
  binary _ _ _ := .answer trivial

end Policy

namespace Callable

def placed : Callable Node Node → Callable Placed Nat
  | .host name f => .host name f
  | .lambda parameters n env => .lambda parameters ⟨n.tree, n.start⟩ env
  | .curried n context callee slots => .curried n.site context callee slots

/-- Host functions are plain, and lambdas and calls made with placeholders stand in the listings
where they say. -/
def Sound (listings : Nat → List Fragment) : Callable Node Node → Prop
  | .host _ f => f.Plain
  | .lambda _ n env =>
    Within (listings n.owner) n.start n.tree.layout ∧ env.context.policy.Transparent
  | .curried n context _ _ => n.Marked listings ∧ context.policy.Transparent

end Callable

variable {listings : Nat → List Fragment}

/-- A fault that leaves the call of a node is blamed on a node once that node has claimed it. -/
structure BlamedAt (listings : Nat → List Fragment) (node : Option Node) (b : Blame) (f : Fault) :
    Prop where
  fault_eq : b.fault = node.elim f fun n => f.orSite n.site
  marked (n : Node) (h : b.node = some n) : n.Marked listings ∧ n ∈ b.progress

def Blamed (listings : Nat → List Fragment) (b : Blame) (f : Fault) : Prop :=
  BlamedAt listings none b f ∧ b.node.isSome

theorem Blamed.orSite_eq {b : Blame} {f : Fault} (h : Blamed listings b f) (site : Nat) :
    f.orSite site = f := by
  obtain ⟨hat, hnode⟩ := h
  obtain ⟨n, hn⟩ := Option.isSome_iff_exists.1 hnode
  rw [← show b.fault = f from hat.fault_eq, Blame.fault, hn]
  rfl

theorem Blamed.at {b : Blame} {f : Fault} (h : Blamed listings b f) (node : Option Node) :
    BlamedAt listings node b f := by
  refine ⟨?_, h.1.marked⟩
  cases node with
  | none => exact h.1.fault_eq
  | some n => exact h.1.fault_eq.trans (h.orSite_eq n.site).symm

theorem BlamedAt.claimed {n : Node} {b : Blame} {f : Fault}
    (h : BlamedAt listings (some n) b f) : Blamed listings b (f.orSite n.site) := by
  refine ⟨⟨h.fault_eq, h.marked⟩, ?_⟩
  have hsite : b.node.map Node.site = f.site.or (some n.site) := congrArg Fault.site h.fault_eq
  cases hb : b.node with
  | some m => rfl
  | none =>
    rw [hb] at hsite
    cases hf : f.site <;> rw [hf] at hsite <;> cases hsite

abbrev Watches (listings : Nat → List Fragment) (E : Blame → Fault → Prop) (m : Watch α)
    (n : Eval Placed α) : Prop :=
  Simulates Callable.placed (Callable.Sound listings) E m n

structure InProgress (listings : Nat → List Fragment) (n : Node) (progress : List Node) : Prop where
  marked : n.Marked listings
  mem : n ∈ progress

theorem InProgress.blamed {n : Node} {progress : List Node} (h : InProgress listings n progress)
    (e : EvalError) : Blamed listings ⟨e, some n, progress⟩ (.atSite e n.site) :=
  ⟨⟨rfl, fun _ hm => Option.some.inj hm ▸ ⟨h.marked, h.mem⟩⟩, rfl⟩

def CallersAgree (listings : Nat → List Fragment) (call : Watch.Caller) (call' : Caller Placed) :
    Prop :=
  ∀ node progress f vs, (∀ n ∈ node, InProgress listings n progress) →
    Watches listings (BlamedAt listings node) (call node progress f vs) (call' f vs)

theorem blamedAt_raise {node : Option Node} {progress : List Node}
    (h : ∀ n ∈ node, InProgress listings n progress) (e : EvalError) :
    BlamedAt listings node ⟨e, node, progress⟩ (.new e) := by
  refine ⟨?_, fun n hn => ⟨(h n hn).marked, (h n hn).mem⟩⟩
  cases node <;> rfl

namespace Watches

theorem seen {m : Watch α} {n : Eval Placed α} (h : Watches listings (BlamedAt listings none) m n) :
    Run.Simulates Callable.placed (Callable.Sound listings) Eq (Watch.seen m) n.run := by
  rw [← bind_pure n.run]
  refine Run.Simulates.bind h fun r r' hr => Run.Simulates.pure ?_
  cases hr with
  | ok a => rfl
  | error he => exact congrArg Except.error he.fault_eq

theorem note (e : Event) {E : Blame → Fault → Prop} :
    Watches listings E (Watch.note e) (Eval.note e) :=
  Simulates.lift (Run.Simulates.note e)

section Calls

variable {call : Watch.Caller} {call' : Caller Placed} (hcall : CallersAgree listings call call')

include hcall

theorem ask (progress : List Node) {Q : α → Prop} {h : Hook α} (hh : h.All HostFunction.Plain Q)
    {supply : Empty → Value → Run Node Node (Except Fault Value)}
    {supply' : Empty → Value → Run Placed Nat (Except Fault Value)} :
    Run.Simulates Callable.placed (Callable.Sound listings) (fun a b => a = b ∧ Q a)
      (h.perform (fun f vs => Watch.seen (call none progress f vs)) supply)
      (h.perform (fun f vs => (call' f vs).run) supply') :=
  Run.Simulates.perform (fun f vs => seen (hcall none progress f vs fun _ hn => nomatch hn))
    (fun i _ => nomatch i) (fun _ _ => rfl) (fun _ _ hf => hf) hh

theorem hook (progress : List Node) {h : Hook α} (hh : h.All HostFunction.Plain fun _ => True)
    {E : Blame → Fault → Prop} :
    Watches listings E (Watch.ask call progress h) (Eval.ask call' h) :=
  Simulates.lift ((ask hcall progress hh).mono fun _ _ h => h.1)

theorem question {n : Node} {progress : List Node} (hn : InProgress listings n progress)
    (e : Event) {h : Hook (Except EvalError α)} (hh : h.All HostFunction.Plain fun _ => True) :
    Watches listings (Blamed listings) (Watch.question call n progress e h)
      (do Eval.note e; Eval.claim n.site (← Eval.ask call' h)) := by
  refine Simulates.bind (note e) fun _ => Simulates.bind (hook hcall progress hh) fun r => ?_
  cases r with
  | ok a => exact Simulates.pure a
  | error e => exact Simulates.throw (hn.blamed e)

theorem truthy (progress : List Node) {env : Env} (henv : env.context.policy.Transparent)
    (v : Value) {E : Blame → Fault → Prop} :
    Watches listings E (Watch.truthy call progress env v) (Eval.truthy call' env v) :=
  Simulates.bind (note _) fun _ => hook hcall progress (henv.truthy v)

theorem callThrough {n : Node} {progress : List Node} (hn : InProgress listings n progress)
    {c : Context} (hc : c.policy.call = Policy.Standard.call) (callee : Value)
    (vs : Option (List Value)) :
    Watches listings (Blamed listings)
      (do Watch.note (.call callee vs); call (some n) progress callee (vs.getD []))
      (Eval.callThrough call' n.site c callee vs) := by
  have hnode : ∀ m ∈ some n, InProgress listings m progress := by
    rintro m ⟨⟩
    exact hn
  refine Simulates.bind (note _) fun _ => ?_
  have hact : (Eval.act call' Eval.noOperand (c.policy.call callee vs)).run =
      (call' callee (vs.getD [])).run := by
    rw [hc]
    exact bind_pure _
  unfold Eval.within
  rw [hact]
  change Run.Simulates _ _ _ (ExceptT.run _) _
  rw [← bind_pure (ExceptT.run (call (some n) progress callee (vs.getD [])))]
  refine Run.Simulates.bind (hcall (some n) progress callee _ hnode) fun r r' hr => ?_
  refine Run.Simulates.pure ?_
  cases hr with
  | ok v => exact .ok v
  | error h => exact .error h.claimed

end Calls

theorem within (site : Nat) {m : Watch α} {n : Eval Placed α}
    (h : Watches listings (Blamed listings) m n) :
    Watches listings (Blamed listings) m (Eval.within site n) := by
  change Run.Simulates _ _ _ m.run _
  rw [← bind_pure m.run]
  refine Run.Simulates.bind h fun r r' hr => Run.Simulates.pure ?_
  cases hr with
  | ok a => exact .ok a
  | error hb =>
    change Agree _ _ (Except.error (Fault.orSite _ site))
    rw [hb.orSite_eq]
    exact .error hb

theorem logical {call' : Caller Placed} (op : LogicalOp) {left right : Watch Value}
    {supply : Side → Value → Eval Placed Value}
    (hleft : Watches listings (Blamed listings) left (supply .left .undefined))
    (hright : Watches listings (Blamed listings) right (supply .right .undefined)) :
    Watches listings (Blamed listings)
      (do
        let a ← left
        if Policy.Standard.needsRight op a then do
          let b ← right
          return .bool b.isTruthy
        else return .bool a.isTruthy)
      (Eval.act call' supply (Policy.Standard.logical op)) := by
  rw [Policy.Standard.logical_eq, Eval.act_run]
  refine Simulates.bind hleft fun a => ?_
  split
  · rw [Policy.Standard.rightOperand, Eval.act_run]
    exact Simulates.bind hright fun b => Simulates.pure _
  · exact Simulates.pure _

section Enter

variable {run : Watch.Caller → List Node → Node → Env → Watch Value}
  {run' : Caller Placed → Placed → Env → Eval Placed Value} {call : Watch.Caller}
  {call' : Caller Placed} (hcall : CallersAgree listings call call')
  (hrun : ∀ progress n env, Within (listings n.owner) n.start n.tree.layout →
    env.context.policy.Transparent →
      Watches listings (Blamed listings) (run call progress n env)
        (run' call' ⟨n.tree, n.start⟩ env))

include hcall hrun

/-- A function that is not the host's fails at a node, for whose sake ever it was called. -/
theorem enter_own (node : Option Node) (progress : List Node) (h : Nat) (vs : List Value) :
    ∀ c : Callable Node Node, c.Sound listings → (∀ name f, c ≠ .host name f) →
      Watches listings (Blamed listings) (Watch.enter run call node progress h vs c)
        (Eval.enter run' call' h vs c.placed)
  | .host name f, _, hown => absurd rfl (hown name f)
  | .lambda names n env, hc, _ => by
    have henv : (env.bind names vs).context.policy.Transparent := by
      rw [env.bind_context]
      exact hc.2
    exact hrun progress n _ hc.1 henv
  | .curried n context callee slots, hc, _ =>
    callThrough hcall ⟨hc.1, List.mem_cons_self⟩ hc.2.call callee (some (Eval.fill slots vs))

theorem enter {node : Option Node} {progress : List Node}
    (hnode : ∀ n ∈ node, InProgress listings n progress) (h : Nat) (vs : List Value)
    (c : Callable Node Node) (hc : c.Sound listings) :
    Watches listings (BlamedAt listings node) (Watch.enter run call node progress h vs c)
      (Eval.enter run' call' h vs c.placed) := by
  by_cases hown : ∀ name f, c ≠ .host name f
  · exact (enter_own hcall hrun node progress h vs c hc hown).mono fun _ _ h => h.at node
  · obtain ⟨name, f, rfl⟩ : ∃ name f, c = .host name f := by simpa using hown
    refine Simulates.bind (note _) fun _ => ?_
    change Run.Simulates _ _ _ (ExceptT.run _) _
    rw [Watch.ask, ExceptT.run_bind_lift, ← bind_pure (Eval.act call' _ _)]
    obtain ⟨hplain⟩ := hc
    refine Run.Simulates.bind (ask hcall progress (hplain vs)) fun r r' hr => ?_
    obtain ⟨rfl, hunsited⟩ := hr
    cases r with
    | ok v => exact Run.Simulates.pure (.ok v)
    | error f =>
      -- A plain function leaves the site open, and so its caller is blamed.
      rcases f with ⟨e, s⟩
      obtain rfl : s = none := hunsited _ rfl
      exact Run.Simulates.pure (.error (blamedAt_raise hnode e))

end Enter

end Watches

end ExprLang
