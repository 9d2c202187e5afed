import ExprLang.Machine
import ExprLang.Proofs.Correspondence.Codes

/-!
Environments, functions and stores of two evaluations that go side by side. The functions of the one
are paired with those of the other, and the pairing grows as functions are made; nothing that was
related stops being so.
-/
namespace ExprLang

open Value (Like Answers)

/-- Environments under the standard policy in which names paired by `D` mean the same. -/
structure Comparison.EnvLike (S : Comparison) (H : Nat → Nat → Prop) (D : NamePairs)
    (env env' : Env) : Prop where
  policy : env.context.policy = .standard
  policy' : env'.context.policy = .standard
  bound {x x' : String} (h : D x x') :
    Option.Rel (Like S.references H) (env.scope.lookup? x) (env'.scope.lookup? x')
  free {x x' : String} (h : D x x') (hx : env.scope.lookup? x = none) :
    Answers S.references H (Policy.Standard.resolve x env.context.globals env.context.data)
      (Policy.Standard.resolve x' env'.context.globals env'.context.data)

namespace Comparison.EnvLike

variable {S : Comparison} {H H' : Nat → Nat → Prop} {D : NamePairs} {env env' : Env}

theorem mono (h : S.EnvLike H D env env') (hH : H ≤ H') : S.EnvLike H' D env env' where
  policy := h.policy
  policy' := h.policy'
  bound hx := Value.optionLike_mono hH (h.bound hx)
  free hx hnone :=
    (h.free hx hnone).mono (fun _ _ he => he.mono fun _ _ => .mono hH) fun _ _ => .mono hH

/-- Names that are bound at the same positions mean the same if the values there are alike. -/
theorem bind_of (h : S.EnvLike H D env env') {names names' : List String} {vs vs' : List Value}
    (hvs : ∀ x x' i, names.idxOf? x = some i → names'.idxOf? x' = some i →
      Like S.references H (vs[i]?.getD .undefined) (vs'[i]?.getD .undefined)) :
    S.EnvLike H (D.bind names names') (env.bind names vs) (env'.bind names' vs') where
  policy := by rw [Env.bind_context, h.policy]
  policy' := by rw [Env.bind_context, h.policy']
  bound {x x'} hx := by
    rw [Env.lookup?_bind, Env.lookup?_bind]
    unfold NamePairs.bind at hx
    cases hi : names.idxOf? x <;> cases hi' : names'.idxOf? x' <;> rw [hi, hi'] at hx
    · exact h.bound hx
    · cases hx
    · cases hx
    · cases hx
      exact .some (hvs _ _ _ hi hi')
  free {x x'} hx hnone := by
    rw [Env.bind_context, Env.bind_context]
    rw [Env.lookup?_bind] at hnone
    obtain ⟨hi, hscope⟩ := Option.or_eq_none_iff.1 hnone
    unfold NamePairs.bind at hx
    rw [Option.map_eq_none_iff.1 hi] at hx
    cases hi' : names'.idxOf? x' <;> rw [hi'] at hx
    · exact h.free hx hscope
    · cases hx

theorem bind (h : S.EnvLike H D env env') (names names' : List String) {vs vs' : List Value}
    (hvs : List.Forall₂ (Like S.references H) vs vs') :
    S.EnvLike H (D.bind names names') (env.bind names vs) (env'.bind names' vs') :=
  h.bind_of fun _ _ i _ _ => Value.like_getD (Value.itemsLike_getElem? hvs i)

theorem push (h : S.EnvLike H D env env') (x x' : String) {v v' : Value}
    (hv : Like S.references H v v') :
    S.EnvLike H (D.bind [x] [x']) (env.push ⟨[x], [v]⟩) (env'.push ⟨[x'], [v']⟩) :=
  h.bind [x] [x'] (.cons hv .nil)

/-- A name that only the second environment binds. -/
theorem pushRight (h : S.EnvLike H D env env') (x : String) (v : Value) :
    S.EnvLike H (D.bind [] [x]) env (env'.push ⟨[x], [v]⟩) := by
  have hbind : S.EnvLike H (D.bind [] [x]) (env.bind [] []) (env'.bind [x] [v]) :=
    h.bind_of fun _ _ _ hi _ => nomatch hi
  exact hbind

end Comparison.EnvLike

/-- Outcomes that host functions cannot tell apart: they do not see where something failed. -/
abbrev OutcomesLike (H : Nat → Nat → Prop) :
    Except Fault Value → Except Fault Value → Prop :=
  Matches (fun f f' => f.error.Like (Like Eq H) f'.error) (Like Eq H)

/-- Two actions go side by side, whichever functions are paired from here on: they ask for the same
on values that are alike, and treat alike whatever comes back in the same way. -/
inductive Request.Alike {φ α : Type} (P : (Nat → Nat → Prop) → φ → φ → Prop)
    (Q : (Nat → Nat → Prop) → α → α → Prop) :
    (Nat → Nat → Prop) → Request φ Empty α → Request φ Empty α → Prop where
  | answer {H : Nat → Nat → Prop} {a a' : α} (h : Q H a a') : Alike P Q H (.answer a) (.answer a')
  | call {H : Nat → Nat → Prop} {f f' : Value} {vs vs' : List Value}
    {next next' : Except Fault Value → Request φ Empty α} (hf : Like Eq H f f')
    (hvs : List.Forall₂ (Like Eq H) vs vs')
    (h : ∀ H', H ≤ H' → Relator.BiUnique H' → ∀ r r', OutcomesLike H' r r' →
      Alike P Q H' (next r) (next' r')) :
    Alike P Q H (.call f vs next) (.call f' vs' next')
  | fresh {H : Nat → Nat → Prop} {next next' : Nat → Request φ Empty α}
    (h : ∀ r, Alike P Q H (next r) (next' r)) : Alike P Q H (.fresh next) (.fresh next')
  | make {H : Nat → Nat → Prop} {name : String} {f f' : φ} {next next' : Value → Request φ Empty α}
    (hf : P H f f')
    (h : ∀ H', H ≤ H' → Relator.BiUnique H' → ∀ v v', Like Eq H' v v' →
      Alike P Q H' (next v) (next' v')) :
    Alike P Q H (.make name f next) (.make name f' next')
  | load {H : Nat → Nat → Prop} {cell : Nat} {next next' : Value → Request φ Empty α}
    (h : ∀ v v', Like Eq H v v' → Alike P Q H (next v) (next' v')) :
    Alike P Q H (.load cell next) (.load cell next')
  | save {H : Nat → Nat → Prop} {cell : Nat} {v v' : Value} {next next' : Request φ Empty α}
    (hv : Like Eq H v v') (h : Alike P Q H next next') :
    Alike P Q H (.save cell v next) (.save cell v' next')

/-- Host functions that do the same with arguments that are alike, from some pairing on. One that is
like itself can do nothing with functions but call them and hand them on. -/
inductive HostFunction.Alike : (Nat → Nat → Prop) → HostFunction → HostFunction → Prop where
  | of {H : Nat → Nat → Prop}
    {f f' : List Value → Request HostFunction Empty (Except Fault Value)}
    (h : ∀ H', H ≤ H' → Relator.BiUnique H' → ∀ vs vs', List.Forall₂ (Like Eq H') vs vs' →
      (f vs).Alike Alike OutcomesLike H' (f' vs')) : Alike H (.of f) (.of f')

theorem HostFunction.Alike.mono {H H' : Nat → Nat → Prop} {f f' : HostFunction}
    (h : Alike H f f') (hH : H ≤ H') : Alike H' f f' := by
  cases h with
  | of h => exact .of fun H₁ hle => h H₁ (hH.trans hle)

namespace Comparison

variable {S : Comparison} {H H' : Nat → Nat → Prop}

/-- Arguments that are given are kept under their names. -/
inductive SlotsLike (S : Comparison) (H : Nat → Nat → Prop) (env' : Env) :
    List (Option Value) → List String → Prop where
  | nil : SlotsLike S H env' [] []
  | missing {n : String} {slots : List (Option Value)} {names : List String}
    (h : SlotsLike S H env' slots names) : SlotsLike S H env' (none :: slots) (n :: names)
  | given {n : String} {v v' : Value} {slots : List (Option Value)} {names : List String}
    (hn : env'.scope.lookup? n = some v') (hv : Like S.references H v v')
    (h : SlotsLike S H env' slots names) : SlotsLike S H env' (some v :: slots) (n :: names)

theorem SlotsLike.mono {env' : Env} {slots : List (Option Value)} {names : List String}
    (h : S.SlotsLike H env' slots names) (hH : H ≤ H') : S.SlotsLike H' env' slots names := by
  induction h with
  | nil => exact .nil
  | missing _ ih => exact .missing ih
  | given hn hv _ ih => exact .given hn (hv.mono hH) ih

/-- Functions whose calls do the same. -/
inductive CallableLike (S : Comparison) (H : Nat → Nat → Prop) :
    Callable Code Nat → Callable Code Nat → Prop where
  | host {name : String} {f f' : HostFunction} (hS : ¬ S.strict) (hf : HostFunction.Alike H f f') :
    CallableLike S H (.host name f) (.host name f')
  | lambda {D : NamePairs} {names names' : List String} {body body' : Code} {env env' : Env}
    (hbody : Code.Corresponds S S.slack (D.bind names names') body body')
    (henv : S.EnvLike H D env env') :
    CallableLike S H (.lambda names body env) (.lambda names' body' env')
  | curried {s s' : Nat} {c c' : Context} {callee callee' : Value}
    {slots slots' : List (Option Value)} (hs : S.strict → s = s') (hc : c.policy = .standard)
    (hc' : c'.policy = .standard) (hcallee : Like S.references H callee callee')
    (hslots : List.Forall₂ (Option.Rel (Like S.references H)) slots slots') :
    CallableLike S H (.curried s c callee slots) (.curried s' c' callee' slots')
  | spelt {s s' t : Nat} {c : Context} {callee callee' : Value} {slots : List (Option Value)}
    {g : String} {names : List String} {arguments : List (Option Code)} {env' : Env}
    (hS : ¬ S.strict) (hc : c.policy = .standard) (hc' : env'.context.policy = .standard)
    (hnames : (g :: names).Nodup) (harguments : List.Forall₂ LooksUp names arguments)
    (hg : env'.scope.lookup? g = some callee') (hcallee : Like S.references H callee callee')
    (hslots : S.SlotsLike H env' slots names) :
    CallableLike S H (.curried s c callee slots)
      (.lambda (missingNames slots names) (.call s' (.lookup t g) arguments) env')

theorem CallableLike.mono {c c' : Callable Code Nat} (h : S.CallableLike H c c') (hH : H ≤ H') :
    S.CallableLike H' c c' := by
  cases h with
  | host hS hf => exact .host hS (hf.mono hH)
  | lambda hbody henv => exact .lambda hbody (henv.mono hH)
  | curried hs hc hc' hcallee hslots =>
    exact .curried hs hc hc' (hcallee.mono hH) (hslots.imp fun _ _ => Value.optionLike_mono hH)
  | spelt hS hc hc' hnames harguments hg hcallee hslots =>
    exact .spelt hS hc hc' hnames harguments hg (hcallee.mono hH) (hslots.mono hH)

end Comparison

/-- A call of a host function. -/
structure HostCall where
  handle : Nat
  name : String
  arguments : List Value

def Event.hostCall? : Event → Option HostCall
  | .host handle name arguments => some ⟨handle, name, arguments⟩
  | _ => none

/-- The calls of host functions, the latest first. -/
def hostCalls (events : List Event) : List HostCall := events.filterMap Event.hostCall?

/-- The same call, or calls of a pair of functions by the same name with like arguments. -/
inductive HostCall.Like (H : Nat → Nat → Prop) : HostCall → HostCall → Prop where
  | same (c : HostCall) : Like H c c
  | paired {h h' : Nat} {name : String} {vs vs' : List Value} (hh : H h h')
    (hvs : List.Forall₂ (Value.Like Eq H) vs vs') : Like H ⟨h, name, vs⟩ ⟨h', name, vs'⟩

theorem HostCall.Like.mono {H H' : Nat → Nat → Prop} {a b : HostCall} (h : Like H a b)
    (hH : H ≤ H') : Like H' a b := by
  cases h with
  | same => exact .same a
  | paired hh hvs => exact .paired (hH _ _ hh) (Value.itemsLike_mono hH hvs)

/-- Stores with the same references to come and with like functions for the pairs of `H`. Without
functions from outside nothing is read from the cells. -/
structure Comparison.StoreLike (S : Comparison) (H : Nat → Nat → Prop) (w w' : Store Code Nat) :
    Prop where
  references (k : Nat) : S.references (w.nextReference + k) (w'.nextReference + k)
  unique : Relator.BiUnique H
  functions {h h' : Nat} (hh : H h h') : ∃ c c', w.functions[h]? = some c ∧
    w'.functions[h']? = some c' ∧ S.CallableLike H c c'
  cells (hS : ¬ S.strict) (i : Nat) : Like S.references H (w.cells i) (w'.cells i)
  hostCalls (hS : ¬ S.strict) :
    List.Forall₂ (HostCall.Like H) (hostCalls w.events) (hostCalls w'.events)

end ExprLang
