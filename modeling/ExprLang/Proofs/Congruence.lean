import ExprLang.Machine

/-!
Relations between runs. One that holds of the single things a run does, and that can be carried
through a sequence of them, holds of actions and of every operation of an evaluation.
-/
namespace ExprLang

variable {β γ α δ ι : Type}

/-- A relation that respects what runs consist of. Lambdas are left out, since their bodies may
differ. -/
structure Congruence (R : (α : Type) → Run β Nat α → Run γ Nat α → Prop) : Prop where
  pure {α : Type} (a : α) : R α (Pure.pure a) (Pure.pure a)
  bind {α δ : Type} {m : Run β Nat α} {n : Run γ Nat α} {f : α → Run β Nat δ}
    {g : α → Run γ Nat δ} (h : R α m n) (k : ∀ a, R δ (f a) (g a)) : R δ (m >>= f) (n >>= g)
  note (e : Event) : R Unit (Run.note e) (Run.note e)
  reference : R Nat Run.reference Run.reference
  load (cell : Nat) : R Value (Run.load cell) (Run.load cell)
  save (cell : Nat) (v : Value) : R Unit (Run.save cell v) (Run.save cell v)
  host (name : String) (f : HostFunction) :
    R Value (Run.newFunction (.host name f)) (Run.newFunction (.host name f))
  curried (site : Nat) (c : Context) (callee : Value) (slots : List (Option Value)) :
    R Value (Run.newFunction (.curried site c callee slots))
      (Run.newFunction (.curried site c callee slots))

/-- The relation between the runs of computations that can fail. -/
def Lifted (R : (α : Type) → Run β Nat α → Run γ Nat α → Prop) (m : Eval β α) (n : Eval γ α) :
    Prop :=
  R (Except Fault α) m.run n.run

namespace Congruence

variable {R : (α : Type) → Run β Nat α → Run γ Nat α → Prop} (hR : Congruence R)

include hR

theorem perform {call : Value → List Value → Run β Nat (Except Fault Value)}
    {call' : Value → List Value → Run γ Nat (Except Fault Value)}
    {supply : ι → Value → Run β Nat (Except Fault Value)}
    {supply' : ι → Value → Run γ Nat (Except Fault Value)}
    (hcall : ∀ f vs, R _ (call f vs) (call' f vs)) (hsupply : ∀ i v, R _ (supply i v) (supply' i v))
    (a : Action ι α) : R α (a.perform call supply) (a.perform call' supply') := by
  induction a with
  | answer a => exact hR.pure a
  | call f vs next ih => exact hR.bind (hcall f vs) ih
  | run i v next ih => exact hR.bind (hsupply i v) ih
  | fresh next ih => exact hR.bind hR.reference ih
  | make name f next ih => exact hR.bind (hR.host name f) ih
  | load cell next ih => exact hR.bind (hR.load cell) ih
  | save cell v next ih => exact hR.bind (hR.save cell v) fun _ => ih

theorem done (a : α) : Lifted R (Pure.pure a) (Pure.pure a) :=
  hR.pure (Except.ok a : Except Fault α)

theorem throw (f : Fault) : Lifted R (α := α) (MonadExcept.throw f) (MonadExcept.throw f) :=
  hR.pure (Except.error f : Except Fault α)

theorem lift {m : Run β Nat α} {n : Run γ Nat α} (h : R α m n) :
    Lifted R (ExceptT.lift m) (ExceptT.lift n) :=
  hR.bind h fun a => hR.pure (Except.ok a)

theorem andThen {m : Eval β α} {n : Eval γ α} {f : α → Eval β δ} {g : α → Eval γ δ}
    (h : Lifted R m n) (k : ∀ a, Lifted R (f a) (g a)) : Lifted R (m >>= f) (n >>= g) := by
  refine hR.bind h fun r => ?_
  cases r with
  | ok a => exact k a
  | error f => exact hR.pure (Except.error f)

theorem claim (site : Nat) (r : Except EvalError α) :
    Lifted R (Eval.claim site r) (Eval.claim site r) :=
  hR.pure _

theorem within (site : Nat) {m : Eval β α} {n : Eval γ α} (h : Lifted R m n) :
    Lifted R (Eval.within site m) (Eval.within site n) :=
  hR.bind h fun _ => hR.pure _

theorem noted (e : Event) : Lifted R (Eval.note e) (Eval.note e) := hR.lift (hR.note e)

theorem act {call : Caller β} {call' : Caller γ} {supply : ι → Value → Eval β Value}
    {supply' : ι → Value → Eval γ Value} (hcall : ∀ f vs, Lifted R (call f vs) (call' f vs))
    (hsupply : ∀ i v, Lifted R (supply i v) (supply' i v)) (a : Action ι (Except Fault Value)) :
    Lifted R (Eval.act call supply a) (Eval.act call' supply' a) :=
  hR.perform hcall hsupply a

section Calls

variable {call : Caller β} {call' : Caller γ} (hcall : ∀ f vs, Lifted R (call f vs) (call' f vs))

include hcall

theorem ask (h : Hook α) : Lifted R (Eval.ask call h) (Eval.ask call' h) :=
  hR.lift (hR.perform hcall (fun i => nomatch i) h)

theorem callThrough (site : Nat) (c : Context) (callee : Value) (vs : Option (List Value)) :
    Lifted R (Eval.callThrough call site c callee vs) (Eval.callThrough call' site c callee vs) :=
  hR.andThen (hR.noted _) fun _ => hR.within site (hR.act hcall (fun i => nomatch i) _)

theorem question (site : Nat) (e : Event) (h : Hook (Except EvalError α)) :
    Lifted R (do Eval.note e; Eval.claim site (← Eval.ask call h))
      (do Eval.note e; Eval.claim site (← Eval.ask call' h)) :=
  hR.andThen (hR.noted e) fun _ => hR.andThen (hR.ask hcall h) fun r => hR.claim site r

theorem lookup (site : Nat) (env : Env) (name : String) :
    Lifted R (Eval.lookup call site env name) (Eval.lookup call' site env name) := by
  unfold Eval.lookup
  split
  · exact hR.done _
  · exact hR.question hcall site _ _

theorem unary (site : Nat) (env : Env) (op : UnaryOp) (v : Value) :
    Lifted R (Eval.unary call site env op v) (Eval.unary call' site env op v) :=
  hR.question hcall site _ _

theorem binary (site : Nat) (env : Env) (op : BinaryOp) (a b : Value) :
    Lifted R (Eval.binary call site env op a b) (Eval.binary call' site env op a b) :=
  hR.question hcall site _ _

theorem property (site : Nat) (env : Env) (target key : Value) :
    Lifted R (Eval.property call site env target key) (Eval.property call' site env target key) :=
  hR.question hcall site _ _

theorem truthy (env : Env) (v : Value) :
    Lifted R (Eval.truthy call env v) (Eval.truthy call' env v) :=
  hR.andThen (hR.noted _) fun _ => hR.ask hcall _

end Calls

end Congruence

end ExprLang
