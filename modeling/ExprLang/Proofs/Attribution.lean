import ExprLang.Proofs.Attribution.Trees
import ExprLang.Proofs.Compilation

/-!
Where an expression puts its failures down to. If the functions it meets are plain host functions
or its own, every failure of an evaluation, and every failure of a later call of a function it made,
is located at the span of the node whose own operation raised it.
-/
namespace ExprLang

open ExprLang.Expr Listing
open Fragment (Within)

variable {α : Type} {listings : Nat → List Fragment}

/-- The functions of a watched run as a run of code has them. -/
def Store.compiled (w : Store Node Node) : Store Code Nat := (w.map Callable.placed).code

theorem watches_run {call : Watch.Caller} {call' : Caller Placed}
    (hcall : CallersAgree listings call call') (progress : List Node) (n : Node) (env : Env)
    (hn : Within (listings n.owner) n.start n.tree.layout)
    (henv : env.context.policy.Transparent) :
    Watches listings (Blamed listings) (Node.run call progress n env)
      (Placed.run call' ⟨n.tree, n.start⟩ env) :=
  watches hcall n.owner progress env henv n.tree n.start hn

theorem callersAgree_caller (listings : Nat → List Fragment) (depth : Nat) :
    CallersAgree listings (Node.caller depth) (Placed.caller depth) := by
  induction depth with
  | zero => exact fun _ _ _ _ _ => Simulates.lift Run.Simulates.tooDeep
  | succ d ih =>
    intro node progress f vs hnode
    cases f with
    | function h =>
      change Run.Simulates _ _ _ (ExceptT.run _) (ExceptT.run _)
      simp only [Node.caller, Placed.caller, Watch.call, Eval.call, Eval.callable?,
        ExceptT.run_bind_lift]
      refine (Run.Simulates.callable? h).bind fun o o' ho => ?_
      obtain ⟨rfl, hsound⟩ := ho
      cases o with
      | none => exact Run.Simulates.pure (.error (blamedAt_raise hnode _))
      | some c => exact Watches.enter ih (watches_run ih) hnode h vs c (hsound c rfl)
    | _ => exact Simulates.throw (blamedAt_raise hnode _)

/-- A blame that names a node in progress, and one that stands where it says. -/
def Blame.Names (listings : Nat → List Fragment) (b : Blame) (n : Node) : Prop :=
  b.node = some n ∧ n.Marked listings ∧ n ∈ b.progress

theorem Watches.run_eq {m : Watch α} {n : Eval Placed α} {c : Eval Code α}
    (h : Watches listings (Blamed listings) m n) (hc : Same n c) {w : Store Node Node}
    (hw : w.All (Callable.Sound listings)) :
    c.run w.compiled = ((m.run w).1.map (·.mapError Blame.fault), (m.run w).2.compiled) ∧
      (m.run w).2.All (Callable.Sound listings) ∧
      ∀ b, (m.run w).1 = some (.error b) → ∃ n, b.Names listings n := by
  obtain ⟨hr, hs, hall⟩ := h w hw
  have hcode := hc.run_eq (w.map Callable.placed)
  rw [hs] at hcode
  refine ⟨hcode.trans ?_, hall, ?_⟩
  · refine congrArg (·, (m.run w).2.compiled) ?_
    generalize (m.run w).1 = r, (n.run (w.map Callable.placed)).1 = r' at hr
    cases hr with
    | none => rfl
    | some hr =>
      cases hr with
      | ok a => rfl
      | error hb => exact congrArg (fun f => some (Except.error f)) hb.1.fault_eq.symm
  · intro b hb
    rw [hb] at hr
    generalize (n.run (w.map Callable.placed)).1 = r' at hr
    rcases hr with @⟨_, _, _ | hblamed⟩
    obtain ⟨n, hn⟩ := Option.isSome_iff_exists.1 hblamed.2
    exact ⟨n, hn, hblamed.1.marked n hn⟩

namespace Expression

variable {tree : Expr} {source : String} {options : Options} {x : Expression}

def watch (x : Expression) (tree : Expr) (owner depth : Nat) (data : Option Value)
    (w : Store Node Node) : Option (Except Blame Value) × Store Node Node :=
  (Node.watch depth (x.env data) ⟨owner, tree, 0⟩).run w

theorem evaluate_watch (hx : ofTree tree source options = .ok x)
    (hp : options.policy.Transparent) (owner : Nat) (howner : listings owner = tree.layout)
    {w : Store Node Node} (hw : w.All (Callable.Sound listings)) (depth : Nat)
    (data : Option Value) :
    x.evaluate depth data w.compiled =
        ((x.watch tree owner depth data w).1.map (·.mapError fun b => x.explain b.fault),
          (x.watch tree owner depth data w).2.compiled) ∧
      (x.watch tree owner depth data w).2.All (Callable.Sound listings) ∧
      ∀ b, (x.watch tree owner depth data w).1 = some (.error b) → ∃ n, b.Names listings n := by
  have hwithin : Within (listings owner) 0 tree.layout :=
    ⟨[], [], by rw [howner, List.nil_append, List.append_nil], rfl⟩
  have henv : (x.env data).context.policy.Transparent := by
    rw [env_ofTree hx data]
    exact hp
  have hwatches := watches_run (callersAgree_caller listings depth) [] ⟨owner, tree, 0⟩ _ hwithin
    henv
  obtain ⟨hrun, hsound, hnames⟩ := hwatches.run_eq (same_compile (same_call depth) _ tree 0) hw
  refine ⟨?_, hsound, hnames⟩
  have hout := congrArg (Prod.map (Option.map (Except.mapError x.explain)) id) hrun
  unfold evaluate Code.eval Code.run
  rw [code_ofTree hx]
  refine hout.trans (congrArg (·, (x.watch tree owner depth data w).2.compiled) ?_)
  change Option.map _ (Option.map _ (x.watch tree owner depth data w).1) = _
  rcases (x.watch tree owner depth data w).1 with _ | _ | _ <;> rfl

theorem explain_names (hx : ofTree tree source options = .ok x)
    (hword : x.listing.length < SpanTable.wordSize) {b : Blame} {n : Node}
    (hb : b.Names listings n) (howner : listings n.owner = tree.layout) :
    (x.explain b.fault).location = some n.span := by
  obtain ⟨hnode, hmarked, -⟩ := hb
  obtain rfl := ofTree_eq_ok hx
  rw [listing, Fragment.length_join] at hword
  have hlocate := hmarked.locate? (howner ▸ hword)
  rw [howner] at hlocate
  rw [explain, Blame.fault, hnode]
  exact hlocate

end Expression

theorem Watch.call_function (run : Watch.Caller → List Node → Node → Env → Watch Value)
    (d : Nat) (node : Option Node) (progress : List Node) (h : Nat) (vs : List Value)
    {w : Store Node Node} {c : Callable Node Node} (hc : w.functions[h]? = some c) :
    (call run (d + 1) node progress (.function h) vs).run w =
      (enter run (call run d) node progress h vs c).run w := by
  rw [call, ExceptT.run_bind_lift, Run.bind_apply]
  change (match (some w.functions[h]?, w) with
    | (some o, u) => _
    | (none, u) => (none, u)) = _
  rw [hc]

theorem caller_watch {w : Store Node Node} (hw : w.All (Callable.Sound listings)) {h : Nat}
    {c : Callable Node Node} (hc : w.functions[h]? = some c) (hown : ∀ name f, c ≠ .host name f)
    (depth : Nat) (vs : List Value) :
    (Code.caller depth (.function h) vs).run w.compiled =
        (((Node.caller depth none [] (.function h) vs).run w).1.map (·.mapError Blame.fault),
          ((Node.caller depth none [] (.function h) vs).run w).2.compiled) ∧
      ((Node.caller depth none [] (.function h) vs).run w).2.All (Callable.Sound listings) ∧
      ∀ b, ((Node.caller depth none [] (.function h) vs).run w).1 = some (.error b) →
        ∃ n, b.Names listings n := by
  cases depth with
  | zero => exact ⟨rfl, hw, fun b hb => nomatch hb⟩
  | succ d =>
    have hcode : w.compiled.functions[h]? = some c.placed.code := by
      simp only [Store.compiled, Store.code, Store.map, Array.getElem?_map, hc, Option.map_some]
    have hcall := callersAgree_caller listings d
    have henter := Watches.enter_own hcall (watches_run hcall) none [] h vs c
      (hw c (Array.mem_of_getElem? hc)) hown
    have hrun := henter.run_eq (same_enter (same_call d) h vs c.placed) hw
    rw [Node.caller, Code.caller, Watch.call_function _ d none [] h vs hc,
      Eval.call_function _ d h vs hcode]
    exact hrun

/-- The expression locates a failure at the very node that raised it. -/
def Expression.Locates (x : Expression) (b : Blame) : Prop :=
  ∃ n ∈ b.progress, b.node = some n ∧ (x.explain b.fault).location = some n.span

/-- Where functions are plain host functions or the expression's own, an evaluation does what the
watched one does, and every failure is located at the node that raised it. The functions that it
leaves are such functions again, and so it is when one of them, unless it is a host function, is
called later and its fault explained. -/
theorem failure_located {tree : Expr} {source : String} {options : Options} {x : Expression}
    (hx : Expression.ofTree tree source options = .ok x)
    (hword : x.listing.length < SpanTable.wordSize) (hp : options.policy.Transparent)
    {w : Store Node Node} (hw : w.All (Callable.Sound fun _ => tree.layout)) :
    (∀ depth data,
      x.evaluate depth data w.compiled =
          ((x.watch tree 0 depth data w).1.map (·.mapError fun b => x.explain b.fault),
            (x.watch tree 0 depth data w).2.compiled) ∧
        (x.watch tree 0 depth data w).2.All (Callable.Sound fun _ => tree.layout) ∧
        ∀ b, (x.watch tree 0 depth data w).1 = some (.error b) → x.Locates b) ∧
    ∀ depth h c vs, w.functions[h]? = some c → (∀ name f, c ≠ .host name f) →
      (Code.caller depth (.function h) vs).run w.compiled =
          (((Node.caller depth none [] (.function h) vs).run w).1.map (·.mapError Blame.fault),
            ((Node.caller depth none [] (.function h) vs).run w).2.compiled) ∧
        ((Node.caller depth none [] (.function h) vs).run w).2.All
          (Callable.Sound fun _ => tree.layout) ∧
        ∀ b, ((Node.caller depth none [] (.function h) vs).run w).1 = some (.error b) →
          x.Locates b := by
  have hlocates : ∀ (b : Blame) (n : Node), b.Names (fun _ => tree.layout) n → x.Locates b :=
    fun b n hn => ⟨n, hn.2.2, hn.1, Expression.explain_names hx hword hn rfl⟩
  constructor
  · intro depth data
    obtain ⟨heval, hsound, hnames⟩ :=
      Expression.evaluate_watch hx hp 0 rfl hw depth data
    exact ⟨heval, hsound, fun b hb => (hnames b hb).elim (hlocates b)⟩
  · intro depth h c vs hc hown
    obtain ⟨hcall, hsound, hnames⟩ := caller_watch hw hc hown depth vs
    exact ⟨hcall, hsound, fun b hb => (hnames b hb).elim (hlocates b)⟩

def Span.columns (start stop : Nat) : Span := ⟨⟨start, 1, start + 1⟩, ⟨stop, 1, stop + 1⟩⟩

def HostFunction.failing : HostFunction := .of fun _ => .fail (.host "no")

theorem HostFunction.plain_failing : HostFunction.failing.Plain := by
  refine .of fun _ => .answer ?_
  rintro f ⟨⟩
  rfl

def Store.ofHost {β π : Type} (name : String) (f : HostFunction) : Store β π :=
  ⟨#[.host name f], 0, fun _ => .undefined, []⟩

/-- A host function that an expression gives back was never a node's to call. -/
theorem returned_host_function_unlocated :
    let options : Options := ⟨some (.object 0 [("f", .function 0)]), .standard⟩
    let w : Store Code Nat := .ofHost "fail" .failing
    ∃ x f, Expression.ofTree (.identifier (.columns 0 1) "f") "f" options = .ok x ∧
      (x.evaluate 1 none w).1 = some (.ok (.function 0)) ∧
      ((Code.caller 1 (.function 0) []).run (x.evaluate 1 none w).2).1 = some (.error f) ∧
      (x.explain f).location = none ∧ HostFunction.failing.Plain :=
  ⟨_, .new (.host "no"), rfl, rfl, rfl, rfl, HostFunction.plain_failing⟩

/-- `not f()` -/
theorem failure_located_operand :
    let call : Expr := .call (.columns 4 7) (.identifier (.columns 4 5) "f") []
    let tree : Expr := .unary (.columns 0 7) .not call
    let options : Options := ⟨some (.object 0 [("f", .function 0)]), .standard⟩
    let w : Store Node Node := .ofHost "fail" .failing
    ∃ x, Expression.ofTree tree "not f()" options = .ok x ∧
      x.listing.length < SpanTable.wordSize ∧ options.policy.Transparent ∧
      w.All (Callable.Sound fun _ => tree.layout) ∧
      ∃ b n, (x.watch tree 0 2 none w).1 = some (.error b) ∧ x.Locates b ∧ b.node = some n ∧
        n.tree = call := by
  intro call tree options w
  have hw : w.All (Callable.Sound fun _ => tree.layout) := by
    intro c hc
    obtain rfl := Array.eq_of_mem_singleton hc
    exact HostFunction.plain_failing
  let x : Expression := ⟨"not f()", tree.layout, tree.compile 0, options⟩
  have hx : Expression.ofTree tree "not f()" options = .ok x := rfl
  have hword : x.listing.length < SpanTable.wordSize := by decide +kernel
  obtain ⟨b, hb, n, hn, htree⟩ : ∃ b, (x.watch tree 0 2 none w).1 = some (.error b) ∧
      ∃ n, b.node = some n ∧ n.tree = call :=
    ⟨_, by with_unfolding_all rfl, _, rfl, rfl⟩
  have hlocates := (failure_located hx hword Policy.transparent_standard hw).1 2 none
  exact ⟨x, hx, hword, Policy.transparent_standard, hw, b, n, hb, hlocates.2.2 b hb, hn, htree⟩

end ExprLang
