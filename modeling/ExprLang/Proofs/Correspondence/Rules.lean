import ExprLang.Proofs.Correspondence.Operations
import ExprLang.Proofs.Termination.Evaluation

/-!
One rule for each kind of code: if its parts meet wherever names mean the same, so does the whole.
An application in place of a binding form enters a function that only the second run has made, so
its body runs one call deeper there.
-/
namespace ExprLang

open Value (Like)

variable {α α' : Type} {S : Comparison} {A B : Prop} {H : Nat → Nat → Prop} {D : NamePairs}
  {w w' : Store Code Nat} {env env' : Env} {d e k s s' : Nat}

namespace Comparison

/-- The second run may nest so many more calls than the first in each of its calls, and `k` more
from here on. -/
abbrev Reaches (S : Comparison) (d k e : Nat) : Prop := (S.slack + 1) * d + k ≤ e

abbrev MeetAt (S : Comparison) (d k e : Nat) (H : Nat → Nat → Prop)
    (V : (Nat → Nat → Prop) → α → α' → Prop) (m : Eval Code α) (n : Eval Code α')
    (w w' : Store Code Nat) : Prop :=
  S.MeetEval (S.Reaches d k e) (e ≤ d) H V m n w w'

/-- Calls meet, however deeply the second run nests them. -/
def CallsMeetAt (S : Comparison) (d : Nat) : Prop :=
  ∀ e, S.CallsMeet (S.Reaches d 0 e) (e ≤ d) (Code.caller d) (Code.caller e)

theorem CallsMeetAt.reaches (h : S.CallsMeetAt d) (k e : Nat) :
    S.CallsMeet (S.Reaches d k e) (e ≤ d) (Code.caller d) (Code.caller e) :=
  (h e).weaken (fun hk => Nat.le_trans (Nat.add_le_add_left (Nat.zero_le k) _) hk) id

/-- The one meets the other, which may nest `k` calls more, wherever names paired by `D` mean the
same. -/
def Runs (S : Comparison) (d k : Nat) (D : NamePairs) (V : (Nat → Nat → Prop) → α → α' → Prop)
    (m : Caller Code → Env → Eval Code α) (n : Caller Code → Env → Eval Code α') : Prop :=
  ∀ ⦃e : Nat⦄ ⦃H : Nat → Nat → Prop⦄ ⦃env env' : Env⦄ ⦃w w' : Store Code Nat⦄,
    S.StoreLike H w w' → S.EnvLike H D env env' →
      S.MeetAt d k e H V (m (Code.caller d) env) (n (Code.caller e) env') w w'

abbrev RunsCode (S : Comparison) (d k : Nat) (D : NamePairs) (c c' : Code) : Prop :=
  S.Runs d k D (fun H => Like S.references H) c.exec c'.exec

abbrev RunsItems (S : Comparison) (d k : Nat) (D : NamePairs) (cs cs' : List (Option Code)) :
    Prop :=
  S.Runs d k D (fun H => List.Forall₂ (Like S.references H)) (Code.execItems · · cs)
    (Code.execItems · · cs')

abbrev RunsSlots (S : Comparison) (d k : Nat) (D : NamePairs) (cs cs' : List (Option Code)) :
    Prop :=
  S.Runs d k D (fun H => List.Forall₂ (Option.Rel (Like S.references H))) (Code.execSlots · · cs)
    (Code.execSlots · · cs')

abbrev RunsEntries (S : Comparison) (d k : Nat) (D : NamePairs) (es es' : List (String × Code)) :
    Prop :=
  S.Runs d k D (fun H => List.Forall₂ (Value.EntryLike S.references H)) (Code.execEntries · · es)
    (Code.execEntries · · es')

/-- Stages meet on inputs that are alike. -/
def RunsStages (S : Comparison) (d k : Nat) (D : NamePairs) (ss ss' : List (Bool × Code)) : Prop :=
  ∀ (i : Nat) ⦃e : Nat⦄ ⦃H : Nat → Nat → Prop⦄ ⦃env env' : Env⦄ ⦃w w' : Store Code Nat⦄
    ⦃v v' : Value⦄, S.StoreLike H w w' → S.EnvLike H D env env' → Like S.references H v v' →
      S.MeetAt d k e H (fun H => Like S.references H) (Code.execStage (Code.caller d) env ss i v)
        (Code.execStage (Code.caller e) env' ss' i v') w w'

variable {a a' b b' c c' : Code} {cs cs' : List (Option Code)} {es es' : List (String × Code)}
  {ss ss' : List (Bool × Code)} {x x' t : String}

namespace RunsCode

theorem undefined : S.RunsCode d k D .undefined .undefined :=
  fun _ _ _ _ _ _ hw _ => .pure hw (.simple rfl)

theorem constant (l : Literal) : S.RunsCode d k D (.constant l) (.constant l) :=
  fun _ _ _ _ _ _ hw _ => .pure hw (.simple (by cases l <;> rfl))

theorem unary (op : UnaryOp) (hs : S.strict → s = s') (hc : S.RunsCode d k D c c') :
    S.RunsCode d k D (.unary s op c) (.unary s' op c') := by
  intro e H env env' w w' hw henv
  refine (hc hw henv).bind fun H₁ v v' u u' hle hu hv => ?_
  exact (henv.mono hle).unary hu hs op hv

theorem binary (op : BinaryOp) (hs : S.strict → s = s') (ha : S.RunsCode d k D a a')
    (hb : S.RunsCode d k D b b') : S.RunsCode d k D (.binary s op a b) (.binary s' op a' b') := by
  intro e H env env' w w' hw henv
  refine (ha hw henv).bind fun H₁ x x' u u' hle hu hx => ?_
  have henvu := henv.mono hle
  refine (hb hu henvu).bind fun H₂ y y' t t' hle' ht hy => ?_
  exact (henvu.mono hle').binary ht hs op (hx.mono hle') hy

theorem logical (op : LogicalOp) (hs : S.strict → s = s') (ha : S.RunsCode d k D a a')
    (hb : S.RunsCode d k D b b') :
    S.RunsCode d k D (.logical s op a b) (.logical s' op a' b') := by
  intro e H env env' w w' hw henv
  refine .noted hw rfl rfl fun u u' hu => .within ?_ hs
  rw [henv.policy, henv.policy']
  refine meet_logical op hu fun side H' t t' hle ht => ?_
  cases side with
  | left => exact ha ht (henv.mono hle)
  | right => exact hb ht (henv.mono hle)

theorem coalesce (ha : S.RunsCode d k D a a') (hb : S.RunsCode d k D b b') :
    S.RunsCode d k D (.coalesce a b) (.coalesce a' b') := by
  intro e H env env' w w' hw henv
  refine (ha hw henv).bind fun H₁ v v' u u' hle hu hv => ?_
  rw [hv.isNullish]
  split
  · exact hb hu (henv.mono hle)
  · exact .pure hu hv

theorem conditional (ha : S.RunsCode d k D a a') (hb : S.RunsCode d k D b b')
    (hc : S.RunsCode d k D c c') :
    S.RunsCode d k D (.conditional a b c) (.conditional a' b' c') := by
  intro e H env env' w w' hw henv
  refine (ha hw henv).bind fun H₁ v v' u u' hle hu hv => ?_
  have henvu := henv.mono hle
  refine (henvu.truthy hu hv).bind fun H₂ holds _ t t' hle' ht heq => ?_
  subst heq
  split
  · exact hb ht (henvu.mono hle')
  · exact hc ht (henvu.mono hle')

theorem object (hes : S.RunsEntries d k D es es') :
    S.RunsCode d k D (.object es) (.object es') := by
  intro e H env env' w w' hw henv
  refine (hes hw henv).bind fun H₁ vs vs' u u' _ hu hvs => ?_
  refine (MeetEval.reference hu).bind fun H₂ r r' t t' hle ht hr => ?_
  exact .pure ht (.ofEntries hr (hvs.imp fun _ _ => .mono hle))

theorem array (hcs : S.RunsItems d k D cs cs') : S.RunsCode d k D (.array cs) (.array cs') := by
  intro e H env env' w w' hw henv
  refine (hcs hw henv).bind fun H₁ vs vs' u u' _ hu hvs => ?_
  refine (MeetEval.reference hu).bind fun H₂ r r' t t' hle ht hr => ?_
  exact .pure ht (.array hr (Value.itemsLike_mono hle hvs))

theorem property (hs : S.strict → s = s') (ha : S.RunsCode d k D a a')
    (hb : S.RunsCode d k D b b') : S.RunsCode d k D (.property s a b) (.property s' a' b') := by
  intro e H env env' w w' hw henv
  refine (ha hw henv).bind fun H₁ x x' u u' hle hu hx => ?_
  have henvu := henv.mono hle
  refine (hb hu henvu).bind fun H₂ y y' t t' hle' ht hy => ?_
  exact (henvu.mono hle').property ht hs (hx.mono hle') hy

theorem callBare (hcalls : S.CallsMeetAt d) (hs : S.strict → s = s')
    (hc : S.RunsCode d k D c c') : S.RunsCode d k D (.callBare s c) (.callBare s' c') := by
  intro e H env env' w w' hw henv
  refine (hc hw henv).bind fun H₁ f f' u u' _ hu hf => ?_
  exact meet_callThrough (hcalls.reaches k e) hu hs henv.policy henv.policy' hf .nil

theorem call (hcalls : S.CallsMeetAt d) (hs : S.strict → s = s') (hc : S.RunsCode d k D c c')
    (hcs : S.RunsItems d k D cs cs') : S.RunsCode d k D (.call s c cs) (.call s' c' cs') := by
  intro e H env env' w w' hw henv
  refine (hc hw henv).bind fun H₁ f f' u u' hle hu hf => ?_
  refine (hcs hu (henv.mono hle)).bind fun H₂ vs vs' t t' hle' ht hvs => ?_
  exact meet_callThrough (hcalls.reaches k e) ht hs henv.policy henv.policy' (hf.mono hle') hvs

theorem curry (hs : S.strict → s = s') (hc : S.RunsCode d k D c c')
    (hcs : S.RunsSlots d k D cs cs') : S.RunsCode d k D (.curry s c cs) (.curry s' c' cs') := by
  intro e H env env' w w' hw henv
  refine (hc hw henv).bind fun H₁ f f' u u' hle hu hf => ?_
  refine (hcs hu (henv.mono hle)).bind fun H₂ vs vs' t t' hle' ht hvs => ?_
  exact .newFunction ht (.curried hs henv.policy henv.policy' (hf.mono hle') hvs)

theorem pipe (hs : S.strict → s = s') (hc : S.RunsCode d k D c c')
    (hoptionals : ss.map (·.1) = ss'.map (·.1)) (hss : S.RunsStages d k D ss ss') :
    S.RunsCode d k D (.pipe s c ss) (.pipe s' c' ss') := by
  intro e H env env' w w' hw henv
  refine (hc hw henv).bind fun H₁ v v' u u' hle hu hv => ?_
  refine .noted hu rfl rfl fun t t' ht => .within ?_ hs
  rw [henv.policy, henv.policy', hoptionals]
  refine meet_runStages (fun i H' y y' r r' hle' hr hy => ?_) _ 0 (le_refl H₁) ht hv
  exact hss i hr (henv.mono (hle.trans hle')) hy

theorem letIn (ha : S.RunsCode d k D a a') (hb : S.RunsCode d k (D.bind [x] [x']) b b') :
    S.RunsCode d k D (.letIn x a b) (.letIn x' a' b') := by
  intro e H env env' w w' hw henv
  refine (ha hw henv).bind fun H₁ v v' u u' hle hu hv => ?_
  exact hb hu ((henv.mono hle).push x x' hv)

end RunsCode

/-! Lists of code. -/

theorem runsItems_nil : S.RunsItems d k D [] [] := fun _ _ _ _ _ _ hw _ => .pure hw .nil

theorem runsItems_none (hcs : S.RunsItems d k D cs cs') :
    S.RunsItems d k D (none :: cs) (none :: cs') := by
  intro e H env env' w w' hw henv
  refine (hcs hw henv).bind fun H₁ vs vs' u u' _ hu hvs => ?_
  exact .pure hu (.cons (.simple rfl) hvs)

theorem runsItems_some (hc : S.RunsCode d k D c c') (hcs : S.RunsItems d k D cs cs') :
    S.RunsItems d k D (some c :: cs) (some c' :: cs') := by
  intro e H env env' w w' hw henv
  refine (hc hw henv).bind fun H₁ v v' u u' hle hu hv => ?_
  refine (hcs hu (henv.mono hle)).bind fun H₂ vs vs' t t' hle' ht hvs => ?_
  exact .pure ht (.cons (hv.mono hle') hvs)

theorem runsSlots_nil : S.RunsSlots d k D [] [] := fun _ _ _ _ _ _ hw _ => .pure hw .nil

theorem runsSlots_none (hcs : S.RunsSlots d k D cs cs') :
    S.RunsSlots d k D (none :: cs) (none :: cs') := by
  intro e H env env' w w' hw henv
  refine (hcs hw henv).bind fun H₁ vs vs' u u' _ hu hvs => ?_
  exact .pure hu (.cons .none hvs)

theorem runsSlots_some (hc : S.RunsCode d k D c c') (hcs : S.RunsSlots d k D cs cs') :
    S.RunsSlots d k D (some c :: cs) (some c' :: cs') := by
  intro e H env env' w w' hw henv
  refine (hc hw henv).bind fun H₁ v v' u u' hle hu hv => ?_
  refine (hcs hu (henv.mono hle)).bind fun H₂ vs vs' t t' hle' ht hvs => ?_
  exact .pure ht (.cons (.some (hv.mono hle')) hvs)

theorem runsEntries_nil : S.RunsEntries d k D [] [] := fun _ _ _ _ _ _ hw _ => .pure hw .nil

theorem runsEntries_cons (key : String) (hc : S.RunsCode d k D c c')
    (hes : S.RunsEntries d k D es es') :
    S.RunsEntries d k D ((key, c) :: es) ((key, c') :: es') := by
  intro e H env env' w w' hw henv
  refine (hc hw henv).bind fun H₁ v v' u u' hle hu hv => ?_
  refine (hes hu (henv.mono hle)).bind fun H₂ vs vs' t t' hle' ht hvs => ?_
  exact .pure ht (.cons (.mk (hv.mono hle')) hvs)

theorem runsStages_nil : S.RunsStages d k D [] [] :=
  fun _ _ _ _ _ _ _ _ _ hw _ hv => .pure hw hv

theorem runsStages_cons (optional : Bool)
    (hc : S.RunsCode d k (D.bind [topicName] [topicName]) c c') (hss : S.RunsStages d k D ss ss') :
    S.RunsStages d k D ((optional, c) :: ss) ((optional, c') :: ss') := by
  intro i e H env env' w w' v v' hw henv hv
  cases i with
  | zero => exact hc hw (henv.push topicName topicName hv)
  | succ i => exact hss i hw henv hv

/-! Applications in place of binding forms. -/

/-- The second run claims a fault; places do not matter. -/
theorem MeetEval.withinRight {V : (Nat → Nat → Prop) → α → α' → Prop} {m : Eval Code α}
    {n : Eval Code α'} (h : S.MeetEval A B H V m n w w') (hS : ¬ S.strict) (site : Nat) :
    S.MeetEval A B H V m (Eval.within site n) w w' := by
  unfold MeetEval Meet
  rw [Eval.within_apply]
  intro hor
  obtain ⟨H', r, r', hle, hw, hm, hn, hr⟩ :=
    h (hor.imp_right (.imp_right fun hsome => by simpa using hsome))
  refine ⟨H', r, _, hle, hw, hm, congrArg (Option.map _) hn, ?_⟩
  cases hr with
  | ok hv => exact .ok hv
  | error hf => exact .error ⟨hf.error, fun h => absurd h hS⟩

/-- The second run enters a function that the first one does not have. -/
theorem MeetEval.enterRight {V : (Nat → Nat → Prop) → α → Value → Prop} {m : Eval Code α}
    {h : Nat} {names : List String} {body : Code} {inner : Env} {vs : List Value}
    {u' : Store Code Nat} (hc : u'.functions[h]? = some (.lambda names body inner))
    (hu' : w'.functions = u'.functions) (hbody : ∀ e', e = e' + 1 →
      S.MeetAt d k e' H V m (body.exec (Code.caller e') (inner.bind names vs)) w w') :
    S.MeetAt d (k + 1) e H V m (Code.caller e (.function h) vs) w w' := by
  cases e with
  | zero =>
    rintro (⟨hA, -⟩ | ⟨-, hB⟩)
    · exact absurd hA (Nat.not_succ_le_zero _)
    · cases hB
  | succ e =>
    unfold MeetAt MeetEval
    rw [Code.caller, Eval.call_function _ e h vs (hu' ▸ hc)]
    refine (hbody e rfl).weaken (fun hA => ?_) Nat.le_of_succ_le
    exact Nat.le_of_succ_le_succ hA

theorem Reaches.of_succ (h : S.Reaches d (k + 1) e) : S.Reaches d k e := Nat.le_of_succ_le h

theorem exec_single_stage (call : Caller Code) (hp : env.context.policy = .standard) (site : Nat)
    (head body : Code) :
    (Code.pipe site head [(false, body)]).exec call env = (do
      let v ← head.exec call env
      Eval.note (.pipe v [false])
      Eval.within site (body.exec call (env.push ⟨[topicName], [v]⟩))) := by
  simp only [Code.exec, hp]
  refine congrArg (head.exec call env >>= ·) (funext fun v => ?_)
  refine congrArg (Eval.note (.pipe v [false]) >>= ·) (funext fun _ => ?_)
  refine congrArg (Eval.within site) ?_
  change Eval.act call _ (.run 0 v (.orFault fun u => .ok u)) = _
  rw [Eval.act_run]
  exact bind_pure _

/-- The function is made first, then its argument is evaluated, and then it is called. -/
theorem exec_application (call : Caller Code) (env' : Env) (s' : Nat) (x' : String) (b' a' : Code)
    (w' : Store Code Nat) :
    ((Code.call s' (.lambda [x'] b') [some a']).exec call env').run w' =
      (do
        let v ← a'.exec call env'
        Eval.callThrough call s' env'.context (.function w'.functions.size) (some [v])).run
      (w'.addFunction (.lambda [x'] b' env')).2 := by
  simp only [Code.exec, Code.execItems, bind_assoc, pure_bind]
  rfl

/-- The function is still there when it is called. -/
theorem function_of_run {function : Callable Code Nat} {v' : Value} {u' : Store Code Nat}
    (hn : (a'.exec (Code.caller e) env').run (w'.addFunction function).2 = (some (.ok v'), u')) :
    u'.functions[w'.functions.size]? = some function := by
  have hgrows := (deepens_exec (deepens_self e) env' a').grows (w'.addFunction function).2
  rw [hn] at hgrows
  exact hgrows.functions Array.getElem?_push_size

theorem RunsCode.applied (hS : ¬ S.strict) (ha : S.RunsCode d k D a a')
    (hb : S.RunsCode d k (D.bind [x] [x']) b b') :
    S.RunsCode d (k + 1) D (.letIn x a b) (.call s' (.lambda [x'] b') [some a']) := by
  intro e H env env' w w' hw henv
  change S.Meet _ _ H _ (((Code.letIn x a b).exec (Code.caller d) env).run w)
    (((Code.call s' (.lambda [x'] b') [some a']).exec (Code.caller e) env').run w')
  rw [exec_application, Code.exec]
  refine MeetEval.bind_run ((ha (hw.addRight _) henv).weaken Reaches.of_succ id)
    fun H₁ v v' u u' hn hle hu hv => ?_
  rw [callThrough_standard _ s' henv.policy']
  have hnoted := hu.noteRight (e := .call (.function w'.functions.size) (some [v'])) rfl
  have hbound : S.EnvLike H₁ (D.bind [x] [x']) (env.push ⟨[x], [v]⟩) (env'.bind [x'] [v']) :=
    (henv.mono hle).push x x' hv
  refine MeetEval.withinRight ?_ hS s'
  refine MeetEval.enterRight (function_of_run hn) ?_ fun e' _ => hb ?_ hbound
  · rfl
  · exact hnoted

theorem RunsCode.piped (hS : ¬ S.strict) (ha : S.RunsCode d k D a a')
    (hb : S.RunsCode d k (D.bind [topicName] [t]) b b') :
    S.RunsCode d (k + 1) D (.pipe s a [(false, b)]) (.call s' (.lambda [t] b') [some a']) := by
  intro e H env env' w w' hw henv
  change S.Meet _ _ H _ (((Code.pipe s a [(false, b)]).exec (Code.caller d) env).run w)
    (((Code.call s' (.lambda [t] b') [some a']).exec (Code.caller e) env').run w')
  rw [exec_application, exec_single_stage _ henv.policy]
  refine MeetEval.bind_run ((ha (hw.addRight _) henv).weaken Reaches.of_succ id)
    fun H₁ v v' u u' hn hle hu hv => ?_
  rw [callThrough_standard _ s' henv.policy']
  have hnoted := (hu.noteLeft (e := .pipe v [false]) rfl).noteRight
    (e := .call (.function w'.functions.size) (some [v'])) rfl
  have hbound : S.EnvLike H₁ (D.bind [topicName] [t]) (env.push ⟨[topicName], [v]⟩)
      (env'.bind [t] [v']) := (henv.mono hle).push topicName t hv
  refine MeetEval.within ?_ fun h => absurd h hS
  refine MeetEval.enterRight (function_of_run hn) ?_ fun e' _ => hb ?_ hbound
  · rfl
  · exact hnoted

end Comparison

end ExprLang
