import ExprLang.Proofs.Correspondence.Runs
import ExprLang.Proofs.Suppliers
import ExprLang.Proofs.Termination.Tameness

/-!
The operations of the standard policy, and the actions of host functions, meet in two runs that go
side by side.
-/
namespace ExprLang

open Value (Like Answers)

variable {α α' : Type} {S : Comparison} {A B : Prop} {H : Nat → Nat → Prop} {D : NamePairs}
  {w w' : Store Code Nat} {env env' : Env} {call call' : Caller Code} {s s' : Nat}

namespace Comparison

/-- A run whose value is to be like that of another. -/
abbrev MeetValue (S : Comparison) (A B : Prop) (H : Nat → Nat → Prop) (m n : Eval Code Value)
    (w w' : Store Code Nat) : Prop :=
  S.MeetEval A B H (fun H => Like S.references H) m n w w'

/-- Calls meet when functions and arguments are alike. -/
def CallsMeet (S : Comparison) (A B : Prop) (call call' : Caller Code) : Prop :=
  ∀ ⦃H : Nat → Nat → Prop⦄ ⦃f f' : Value⦄ ⦃vs vs' : List Value⦄ ⦃w w' : Store Code Nat⦄,
    S.StoreLike H w w' → Like S.references H f f' → List.Forall₂ (Like S.references H) vs vs' →
      S.MeetValue A B H (call f vs) (call' f' vs') w w'

theorem CallsMeet.weaken {A' B' : Prop} (h : S.CallsMeet A' B' call call') (hA : A → A')
    (hB : B → B') : S.CallsMeet A B call call' :=
  fun _ _ _ _ _ _ _ hw hf hvs => (h hw hf hvs).weaken hA hB

namespace EnvLike

theorem lookup (henv : S.EnvLike H D env env') (hw : S.StoreLike H w w') (hs : S.strict → s = s')
    {x x' : String} (hx : D x x') :
    S.MeetValue A B H (Eval.lookup call s env x) (Eval.lookup call' s' env' x') w w' := by
  have hbound := henv.bound hx
  have hfree := henv.free hx
  unfold Eval.lookup Env.resolve
  rw [henv.policy, henv.policy']
  generalize env.scope.lookup? x = o, env'.scope.lookup? x' = o' at hbound hfree
  cases hbound with
  | some hv => exact .pure hw hv
  | none => exact .question hw rfl rfl hs (hfree rfl)

theorem topic (henv : S.EnvLike H D env env') (hw : S.StoreLike H w w') (hs : S.strict → s = s')
    (hx : D topicName topicName) :
    S.MeetValue A B H (Eval.claim s env.topic) (Eval.claim s' env'.topic) w w' := by
  refine .claim hw hs ?_
  have hbound := henv.bound hx
  unfold Env.topic
  generalize env.scope.lookup? topicName = o, env'.scope.lookup? topicName = o' at hbound
  cases hbound with
  | some hv => exact .ok hv
  | none => exact .error (.same rfl)

/-- A name that means the topic cannot be looked up outside of all stages, as the topic cannot. -/
theorem named (henv : S.EnvLike H D env env') (hw : S.StoreLike H w w') (hS : ¬ S.strict)
    {t : String} (ht : D topicName t) :
    S.MeetValue A B H (Eval.claim s env.topic) (Eval.lookup call' s' env' t) w w' := by
  have hbound := henv.bound ht
  have hfree := henv.free ht
  unfold Env.topic Eval.lookup Env.resolve
  rw [henv.policy']
  generalize env.scope.lookup? topicName = o, env'.scope.lookup? t = o' at hbound hfree
  cases hbound with
  | some hv => exact .done hw (.ok hv)
  | none =>
    have hunbound : Policy.Standard.resolve topicName env.context.globals env.context.data =
        .error .unboundTopic := if_pos rfl
    have hanswer := hfree rfl
    rw [hunbound] at hanswer
    have hnote := hw.noteRight (e := .resolve t env'.context.globals env'.context.data) rfl
    exact MeetEval.claim hnote (fun h => absurd h hS) hanswer

theorem unary (henv : S.EnvLike H D env env') (hw : S.StoreLike H w w') (hs : S.strict → s = s')
    (op : UnaryOp) {v v' : Value} (hv : Like S.references H v v') :
    S.MeetValue A B H (Eval.unary call s env op v) (Eval.unary call' s' env' op v') w w' := by
  unfold Eval.unary
  rw [henv.policy, henv.policy']
  exact .question hw rfl rfl hs (Policy.Standard.unary_like op hv)

theorem binary (henv : S.EnvLike H D env env') (hw : S.StoreLike H w w') (hs : S.strict → s = s')
    (op : BinaryOp) {a a' b b' : Value} (ha : Like S.references H a a')
    (hb : Like S.references H b b') :
    S.MeetValue A B H (Eval.binary call s env op a b) (Eval.binary call' s' env' op a' b')
      w w' := by
  unfold Eval.binary
  rw [henv.policy, henv.policy']
  exact .question hw rfl rfl hs (Policy.Standard.binary_like S.unique hw.unique op ha hb)

theorem property (henv : S.EnvLike H D env env') (hw : S.StoreLike H w w') (hs : S.strict → s = s')
    {a a' b b' : Value} (ha : Like S.references H a a') (hb : Like S.references H b b') :
    S.MeetValue A B H (Eval.property call s env a b) (Eval.property call' s' env' a' b') w w' := by
  unfold Eval.property
  rw [henv.policy, henv.policy']
  exact .question hw rfl rfl hs (ha.property hb)

theorem truthy (henv : S.EnvLike H D env env') (hw : S.StoreLike H w w') {v v' : Value}
    (hv : Like S.references H v v') :
    S.MeetEval A B H (fun _ => Eq) (Eval.truthy call env v) (Eval.truthy call' env' v') w w' := by
  unfold Eval.truthy
  rw [henv.policy, henv.policy']
  exact .noted hw rfl rfl fun _ _ hu => .done hu (.ok hv.isTruthy)

end EnvLike

theorem meet_callThrough (hcalls : S.CallsMeet A B call call') (hw : S.StoreLike H w w')
    (hs : S.strict → s = s') {c c' : Context} (hc : c.policy = .standard)
    (hc' : c'.policy = .standard) {f f' : Value} (hf : Like S.references H f f')
    {vs vs' : Option (List Value)}
    (hvs : List.Forall₂ (Like S.references H) (vs.getD []) (vs'.getD [])) :
    S.MeetValue A B H (Eval.callThrough call s c f vs) (Eval.callThrough call' s' c' f' vs')
      w w' := by
  rw [callThrough_standard call s hc, callThrough_standard call' s' hc']
  exact .noted hw rfl rfl fun _ _ hu => (hcalls hu hf hvs).within hs

/-- The right operand of a logical operator is evaluated in both runs or in neither. -/
theorem meet_logical (op : LogicalOp) {supply supply' : Side → Value → Eval Code Value}
    (hw : S.StoreLike H w w')
    (hsupply : ∀ (side : Side) ⦃H' u u'⦄, H ≤ H' → S.StoreLike H' u u' →
      S.MeetValue A B H' (supply side .undefined) (supply' side .undefined) u u') :
    S.MeetValue A B H (Eval.act call supply (Policy.Standard.logical op))
      (Eval.act call' supply' (Policy.Standard.logical op)) w w' := by
  rw [Policy.Standard.logical_eq, Eval.act_run, Eval.act_run]
  refine (hsupply .left (le_refl H) hw).bind fun H₁ a a' u u' hle hu ha => ?_
  rw [Policy.Standard.needsRight, Policy.Standard.needsRight, ha.isTruthy]
  split
  · rw [Policy.Standard.rightOperand, Eval.act_run, Eval.act_run]
    refine (hsupply .right hle hu).bind fun H₂ b b' t t' _ ht hb => ?_
    rw [hb.isTruthy]
    exact .pure ht (.simple rfl)
  · exact .pure hu (.simple rfl)

/-- A pipe runs the same stages in both runs. -/
theorem meet_runStages {supply supply' : Nat → Value → Eval Code Value}
    (hsupply : ∀ (i : Nat) ⦃H' v v' u u'⦄, H ≤ H' → S.StoreLike H' u u' →
      Like S.references H' v v' → S.MeetValue A B H' (supply i v) (supply' i v') u u')
    (optionals : List Bool) (i : Nat) {H' : Nat → Nat → Prop} (hle : H ≤ H')
    (hw : S.StoreLike H' w w') {v v' : Value} (hv : Like S.references H' v v') :
    S.MeetValue A B H' (Eval.act call supply (Policy.Standard.runStages i v optionals))
      (Eval.act call' supply' (Policy.Standard.runStages i v' optionals)) w w' := by
  induction optionals generalizing i H' v v' w w' with
  | nil => exact .pure hw hv
  | cons optional rest ih =>
    simp only [Policy.Standard.runStages, hv.isNullish]
    split
    · exact .pure hw hv
    · rw [Eval.act_run, Eval.act_run]
      refine (hsupply i hle hw hv).bind fun H₁ a a' u u' hle₁ hu ha => ?_
      exact ih (i + 1) (hle.trans hle₁) hu ha

section HostFunctions

variable (hS : ¬ S.strict)

include hS

theorem outcomesLike_iff (r r' : Except Fault Value) :
    S.Results (fun H => Like S.references H) H r r' ↔ OutcomesLike H r r' := by
  have hreferences := S.references_eq hS
  constructor
  · rintro (hv | hf)
    · exact .ok (hreferences ▸ hv)
    · exact .error (hreferences ▸ hf.error)
  · rintro (hv | hf)
    · exact .ok (hreferences.symm ▸ hv)
    · exact .error ⟨hreferences.symm ▸ hf, fun h => absurd h hS⟩

/-- Actions that are alike meet, since all that comes back to them is alike. -/
theorem meet_perform (hcalls : S.CallsMeet A B call call')
    {supply supply' : Empty → Value → Run Code Nat (Except Fault Value)}
    {Q : (Nat → Nat → Prop) → α → α → Prop} {a a' : Hook α}
    (ha : a.Alike HostFunction.Alike Q H a') (hw : S.StoreLike H w w') :
    S.Meet A B H Q (a.perform (fun f vs => (call f vs).run) supply w)
      (a'.perform (fun f vs => (call' f vs).run) supply' w') := by
  have hreferences := S.references_eq hS
  induction ha generalizing w w' with
  | answer h => exact .done hw h
  | call hf hvs _ ih =>
    have hcall := hcalls hw (hreferences.symm ▸ hf) (hreferences.symm ▸ hvs)
    exact Meet.bind hcall fun H' r r' u u' _ hle hu hr =>
      ih H' hle hu.unique r r' ((outcomesLike_iff hS r r').1 hr) hu
  | @fresh _ _ next' _ ih =>
    have hr : w.nextReference = w'.nextReference := by
      have h := hw.references 0
      rwa [hreferences] at h
    have hnext := ih w.nextReference hw.reference
    rwa [congrArg next' hr] at hnext
  | make hf _ ih =>
    refine Meet.bind (hw.meet_newFunction (.host hS hf)) fun H' v v' u u' _ hle hu hv => ?_
    exact ih H' hle hu.unique v v' (hreferences ▸ hv) hu
  | load _ ih => exact ih _ _ (hreferences ▸ hw.cells hS _) hw
  | save hv _ ih => exact ih (hw.save _ (hreferences.symm ▸ hv))

end HostFunctions

end Comparison

end ExprLang
