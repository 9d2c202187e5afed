import ExprLang.Expr.Evaluation
import ExprLang.Proofs.Attribution.Rules
import ExprLang.Proofs.Fragments

/-!
Every tree is watched as it is evaluated, and every node that fails on its own account is found in
the listing of its tree.
-/
namespace ExprLang

open ExprLang.Expr Listing
open Fragment (Within)

variable {listings : Nat → List Fragment} {call : Watch.Caller} {call' : Caller Placed}

theorem Node.marked_of_head {n : Node} {f : Fragment} {fs : List Fragment}
    (h : Within (listings n.owner) n.start (f :: fs)) (hsite : n.site = n.start + 1)
    (htext : f.text ≠ []) (hspan : f.span = n.span) : n.Marked listings :=
  ⟨f, n.start, hsite, h.head, htext, hspan⟩

theorem InProgress.of_marked {n : Node} (h : n.Marked listings) (progress : List Node) :
    InProgress listings n (n :: progress) :=
  ⟨h, List.mem_cons_self⟩

mutual

theorem watches (hcall : CallersAgree listings call call') (owner : Nat) (progress : List Node)
    (env : Env) (henv : env.context.policy.Transparent) :
    ∀ (e : Expr) (start : Nat), Within (listings owner) start e.layout →
      Watches listings (Blamed listings) (e.watch call owner progress env start)
        (e.eval call' env start)
  | .literal _ _, _, _ => Simulates.pure _
  | .identifier span name, start, h => by
    have hn : Node.Marked listings ⟨owner, .identifier span name, start⟩ :=
      Node.marked_of_head h rfl (lookup_ne_nil name) rfl
    simp only [watch, Expr.eval, Eval.lookup]
    cases env.scope.lookup? name with
    | some v => exact Simulates.pure v
    | none => exact Watches.question hcall (.of_marked hn progress) _ (henv.resolve name _ _)
  | .topic span, start, h => by
    have hn : Node.Marked listings ⟨owner, .topic span, start⟩ :=
      Node.marked_of_head h rfl (lookup_ne_nil _) rfl
    simp only [watch, Expr.eval]
    cases env.topic with
    | ok v => exact Simulates.pure v
    | error e => exact Simulates.throw ((InProgress.of_marked hn progress).blamed e)
  | .unary span op argument, start, h => by
    have hn : Node.Marked listings ⟨owner, .unary span op argument, start⟩ :=
      Node.marked_of_head h rfl (unaryHead_ne_nil op) rfl
    refine Simulates.bind (watches hcall owner _ env henv argument _ h.tail.left) fun v => ?_
    exact Watches.question hcall (.of_marked hn progress) _ (henv.unary op v)
  | .binary span op left right, start, h => by
    have hn : Node.Marked listings ⟨owner, .binary span op left right, start⟩ :=
      Node.marked_of_head h rfl (binaryHead_ne_nil op) rfl
    refine Simulates.bind (watches hcall owner _ env henv left _ h.left.left.tail) fun a => ?_
    refine Simulates.bind (watches hcall owner _ env henv right _ (h.left.right.tail.at_eq ?_))
      fun b => ?_
    · simp only [Fragment.size, width, List.length_singleton]
      omega
    exact Watches.question hcall (.of_marked hn progress) _ (henv.binary op a b)
  | .logical span op left right, start, h => by
    refine Simulates.bind (Watches.note _) fun _ => Watches.within _ ?_
    rw [henv.logical]
    refine Watches.logical op (watches hcall owner _ env henv left _ h.left.left.tail)
      (watches hcall owner _ env henv right _ (h.left.right.tail.at_eq ?_))
    simp only [Fragment.size, width]
    omega
  | .coalesce span left right, start, h => by
    refine Simulates.bind (watches hcall owner _ env henv left _ h.left.left.tail) fun v => ?_
    split
    · refine watches hcall owner _ env henv right _ (h.left.right.tail.at_eq ?_)
      simp only [Fragment.size, width, List.length_cons, List.length_nil]
      omega
    · exact Simulates.pure v
  | .conditional span test consequent alternate, start, h => by
    refine Simulates.bind (watches hcall owner _ env henv test _ h.left.left.left.tail) fun v => ?_
    refine Simulates.bind (Watches.truthy hcall _ henv v) fun b => ?_
    cases b with
    | true =>
      refine watches hcall owner _ env henv consequent _ (h.left.left.right.tail.at_eq ?_)
      simp only [Fragment.size, width]
      omega
    | false =>
      refine watches_alternate hcall owner _ env henv span alternate _
        (h.left.right.tail.at_eq ?_)
      simp only [Fragment.size, Fragment.size_append, width, List.length_singleton]
      omega
  | .object span properties, start, h => by
    refine Simulates.bind
      (watches_properties hcall owner _ env henv span properties _ fun _ => h.left.tail)
      fun es => ?_
    exact Simulates.bind (Simulates.lift Run.Simulates.reference) fun r => Simulates.pure _
  | .array span elements, start, h => by
    refine Simulates.bind
      (watches_elements hcall owner _ env henv span elements _ fun _ => h.left.tail)
      fun es => ?_
    exact Simulates.bind (Simulates.lift Run.Simulates.reference) fun r => Simulates.pure _
  | .member span target key true extended, start, h => by
    have hn : Node.Marked listings ⟨owner, .member span target key true extended, start⟩ :=
      Node.marked_of_head h rfl memberHead_ne_nil rfl
    refine Simulates.bind (watches hcall owner _ env henv target _ h.left.left.tail) fun t => ?_
    refine Simulates.bind (watches hcall owner _ env henv key _ (h.left.right.tail.at_eq ?_))
      fun k => ?_
    · simp only [Fragment.size, width, List.length_singleton]
      omega
    exact Watches.question hcall (.of_marked hn progress) _ (henv.property t k)
  | .member span target key false extended, start, h => by
    have hn : Node.Marked listings ⟨owner, .member span target key false extended, start⟩ :=
      Node.marked_of_head h rfl memberHead_ne_nil rfl
    refine Simulates.bind (watches hcall owner _ env henv target _ h.left.left.tail) fun t => ?_
    refine Simulates.bind (Simulates.pure _) fun k => ?_
    exact Watches.question hcall (.of_marked hn progress) _ (henv.property t k)
  | .call span callee arguments, start, h => by
    -- A call without arguments, one with placeholders and any other are laid out differently.
    simp only [watch, Expr.eval]
    rw [layout] at h
    by_cases hnil : arguments.isEmpty
    · have hsite : Node.site ⟨owner, .call span callee arguments, start⟩ = start + 1 := by
        rw [Node.site, List.isEmpty_iff.1 hnil]
        rfl
      rw [if_pos hnil] at h
      have hn : Node.Marked listings ⟨owner, .call span callee arguments, start⟩ :=
        Node.marked_of_head h hsite callHead_ne_nil rfl
      rw [if_pos hnil, if_pos hnil, ← hsite]
      refine Simulates.bind (watches hcall owner _ env henv callee _ h.tail.left) fun f => ?_
      exact Watches.callThrough hcall (.of_marked hn progress) henv.call f none
    rw [if_neg hnil] at h
    rw [if_neg hnil, if_neg hnil]
    by_cases hmissing : arguments.any (·.isPlaceholder)
    · have hsite : Node.site ⟨owner, .call span callee arguments, start⟩ =
          start + (curryHead arguments).length + 1 := if_pos hmissing
      rw [if_pos hmissing] at h
      have hn : Node.Marked listings ⟨owner, .call span callee arguments, start⟩ :=
        ⟨_, _, hsite, h.left.tail.left.left.head, callHead_ne_nil, rfl⟩
      rw [if_pos hmissing, if_pos hmissing, ← hsite]
      refine Simulates.bind (watches hcall owner _ env henv callee _ h.left.tail.left.left.tail)
        fun f => ?_
      refine Simulates.bind (watches_arguments hcall owner _ env henv span arguments 0 _
        fun _ => h.left.tail.left.right.tail.at_eq ?_) fun slots => ?_
      · simp only [Fragment.size, width]
        omega
      exact Simulates.lift (Run.Simulates.newFunction ⟨hn, henv⟩ rfl)
    · have hsite : Node.site ⟨owner, .call span callee arguments, start⟩ = start + 1 :=
        if_neg hmissing
      rw [if_neg hmissing] at h
      have hn : Node.Marked listings ⟨owner, .call span callee arguments, start⟩ :=
        Node.marked_of_head h hsite callHead_ne_nil rfl
      rw [if_neg hmissing, if_neg hmissing, ← hsite]
      refine Simulates.bind (watches hcall owner _ env henv callee _ h.left.left.tail) fun f => ?_
      refine Simulates.bind (watches_arguments hcall owner _ env henv span arguments 0 _
        fun _ => h.left.right.tail.at_eq ?_) fun vs => ?_
      · simp only [Fragment.size, width]
        omega
      exact Watches.callThrough hcall (.of_marked hn progress) henv.call f (some (vs.filterMap id))
  | .pipe span head stages, start, h => by
    refine Simulates.bind (watches hcall owner _ env henv head _ h.left.left.tail) fun v => ?_
    refine Simulates.bind (Watches.note _) fun _ => Watches.within _ ?_
    rw [henv.pipe]
    refine watches_stages hcall owner _ env henv stages _ 0 v
      (fun _ => h.left.right.tail.at_eq ?_) fun j u => by rw [Nat.zero_add]
    simp only [Fragment.size, width]
    omega
  | .lambda span parameters body, start, h => by
    have hbody : Within (listings owner)
        (start + (if parameters.isEmpty then thunkHead else lambdaHead parameters.length).length)
        body.layout := by
      rw [layout] at h
      split <;> rename_i hnil
      · rw [if_pos hnil] at h
        exact h.tail.left
      · rw [if_neg hnil] at h
        exact h.tail.left
    exact Simulates.lift (Run.Simulates.newFunction ⟨hbody, henv⟩ rfl)
  | .letIn span declarations body, start, h => by
    refine watches_declarations hcall owner _ env henv declarations _ h.left.left.tail
      fun env henv => watches hcall owner _ env henv body _ (h.left.right.tail.at_eq ?_)
    simp only [Fragment.size]
    omega

theorem watches_alternate (hcall : CallersAgree listings call call') (owner : Nat)
    (progress : List Node) (env : Env) (henv : env.context.policy.Transparent) (span : Span) :
    ∀ (e : Option Expr) (start : Nat), Within (listings owner) start (alternateLayout span e) →
      Watches listings (Blamed listings) (watchAlternate call owner progress env e start)
        (evalAlternate call' env e start)
  | none, _, _ => Simulates.pure _
  | some e, start, h => watches hcall owner progress env henv e start h

theorem watches_properties (hcall : CallersAgree listings call call') (owner : Nat)
    (progress : List Node) (env : Env) (henv : env.context.policy.Transparent) (span : Span) :
    ∀ (ps : List (Property Expr)) (start : Nat),
      (ps.isEmpty = false → Within (listings owner) start (propertiesLayout span ps)) →
      Watches listings (Blamed listings) (watchProperties call owner progress env ps start)
        (evalProperties call' env ps start)
  | [], _, _ => Simulates.pure _
  | ⟨key, value, place⟩ :: ps, start, h => by
    -- The layout of an empty rest has no place, since nothing follows the last property.
    refine Simulates.bind (watches hcall owner progress env henv value _
      (h rfl).left.left.tail.tail) fun v => ?_
    refine Simulates.bind (watches_properties hcall owner progress env henv span ps _ fun hps => ?_)
      fun vs => Simulates.pure _
    have h := h rfl
    rw [propertiesLayout, hps, if_neg Bool.false_ne_true] at h
    refine h.right.at_eq ?_
    simp only [Fragment.size, Fragment.size_append, width, List.length_singleton]
    omega

theorem watches_elements (hcall : CallersAgree listings call call') (owner : Nat)
    (progress : List Node) (env : Env) (henv : env.context.policy.Transparent) (span : Span) :
    ∀ (es : List (Option Expr)) (start : Nat),
      (es.isEmpty = false → Within (listings owner) start (elementsLayout span es)) →
      Watches listings (Blamed listings) (watchElements call owner progress env es start)
        (evalElements call' env es start)
  | [], _, _ => Simulates.pure _
  | none :: es, start, h => by
    refine Simulates.bind (Simulates.pure _) fun v => ?_
    refine Simulates.bind (watches_elements hcall owner progress env henv span es _ fun hes => ?_)
      fun vs => Simulates.pure _
    have h := h rfl
    rw [elementsLayout, hes, if_neg Bool.false_ne_true] at h
    exact h.right
  | some e :: es, start, h => by
    refine Simulates.bind (watches hcall owner progress env henv e _ (h rfl).left.left) fun v => ?_
    refine Simulates.bind (watches_elements hcall owner progress env henv span es _ fun hes => ?_)
      fun vs => Simulates.pure _
    have h := h rfl
    rw [elementsLayout, hes, if_neg Bool.false_ne_true] at h
    refine h.right.at_eq ?_
    simp only [Fragment.size, Fragment.size_append, List.length_singleton]
    omega

/-- Arguments are placed one after the other; what is missing has a fragment but no value. -/
theorem watches_arguments (hcall : CallersAgree listings call call') (owner : Nat)
    (progress : List Node) (env : Env) (henv : env.context.policy.Transparent) (span : Span) :
    ∀ (as : List (Argument Expr)) (i start : Nat),
      (as.isEmpty = false → Within (listings owner) start (argumentsLayout span i as)) →
      Watches listings (Blamed listings) (watchArguments call owner progress env as i start)
        (evalArguments call' env as i start)
  | [], _, _, _ => Simulates.pure _
  | .value e :: as, i, start, h => by
    refine Simulates.bind (Simulates.bind (watches hcall owner progress env henv e _
      (h rfl).left.left) fun v => Simulates.pure _) fun v => ?_
    refine Simulates.bind (watches_arguments hcall owner progress env henv span as (i + 1) _
      fun has => ?_) fun vs => Simulates.pure _
    have h := h rfl
    rw [argumentsLayout, has, if_neg Bool.false_ne_true] at h
    refine h.right.at_eq ?_
    simp only [Fragment.size, Fragment.size_append, List.length_singleton]
    omega
  | .placeholder _ :: as, i, start, h => by
    refine Simulates.bind (Simulates.pure _) fun v => ?_
    refine Simulates.bind (watches_arguments hcall owner progress env henv span as (i + 1) _
      fun has => ?_) fun vs => Simulates.pure _
    have h := h rfl
    rw [argumentsLayout, has, if_neg Bool.false_ne_true] at h
    refine h.right.at_eq ?_
    simp only [Fragment.size, Fragment.size_append, List.length_singleton]
    omega

theorem watches_stages (hcall : CallersAgree listings call call') (owner : Nat)
    (progress : List Node) (env : Env) (henv : env.context.policy.Transparent) :
    ∀ (ss : List (Stage Expr)) (start i : Nat) (v : Value),
      (ss.isEmpty = false → Within (listings owner) start (stagesLayout ss)) →
      ∀ {supply : Nat → Value → Eval Placed Value},
      (∀ j u, supply (i + j) u = evalStage call' env ss start j u) →
      Watches listings (Blamed listings) (watchStages call owner progress env ss start v)
        (Eval.act call' supply (Policy.Standard.runStages i v (ss.map (·.optional))))
  | [], _, _, v, _, _, _ => Simulates.pure v
  | ⟨optional, body⟩ :: ss, start, i, v, h, supply, hsupply => by
    simp only [watchStages, List.map_cons, Policy.Standard.runStages]
    split
    · exact Simulates.pure v
    rw [Eval.act_run, show supply i v = evalStage call' env (⟨optional, body⟩ :: ss) start 0 v from
      hsupply 0 v]
    refine Simulates.bind (watches hcall owner progress (env.push ⟨[topicName], [v]⟩) henv body _
      (h rfl).left.left.tail) fun w => ?_
    refine watches_stages hcall owner progress env henv ss _ (i + 1) w (fun hss => ?_)
      fun j u => ?_
    · have h := h rfl
      rw [stagesLayout, hss, if_neg Bool.false_ne_true] at h
      refine h.right.at_eq ?_
      simp only [Fragment.size, Fragment.size_append, width, List.length_singleton]
      omega
    · rw [Nat.add_assoc, Nat.add_comm 1 j]
      exact hsupply (j + 1) u

theorem watches_declarations (hcall : CallersAgree listings call call') (owner : Nat)
    (progress : List Node) (env : Env) (henv : env.context.policy.Transparent)
    {k : Env → Watch Value} {k' : Env → Eval Placed Value} :
    ∀ (ds : List (Declaration Expr)) (start : Nat),
      Within (listings owner) start (declarationsLayout ds) →
      (∀ env, env.context.policy.Transparent →
        Watches listings (Blamed listings) (k env) (k' env)) →
      Watches listings (Blamed listings)
        (do k (← watchDeclarations call owner progress env ds start))
        (do k' (← evalDeclarations call' env ds start))
  | [], _, _, hk => hk env henv
  | ⟨name, init, _⟩ :: ds, _, h, hk => by
    simp only [watchDeclarations, evalDeclarations, bind_assoc]
    refine Simulates.bind (watches hcall owner progress env henv init _ h.left.left.tail)
      fun v => ?_
    refine watches_declarations hcall owner progress (env.push ⟨[name.text], [v]⟩) henv ds _
      (h.right.at_eq ?_) hk
    simp only [Fragment.size, Fragment.size_append, width]
    omega

end

end ExprLang
