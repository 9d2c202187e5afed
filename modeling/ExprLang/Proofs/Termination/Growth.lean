import ExprLang.Code.Run
import ExprLang.Proofs.Calls
import ExprLang.Proofs.Congruence
import ExprLang.Proofs.Termination.Handles

/-!
Runs with calls nested more deeply. A store only grows, and a run that comes to an outcome is the
same at every greater depth, while one that is cut does no more than a deeper one.
-/
namespace ExprLang

variable {α δ : Type}

/-- Whether a call is given a function among its arguments, by itself or in an array or object. -/
def Event.handsOver : Event → Bool
  | .call _ (some vs) => !(Value.itemHandles vs).isEmpty
  | _ => false

def handOvers (events : List Event) : Nat := events.countP Event.handsOver

namespace Store

variable {β π : Type}

/-- The functions stay and the events go on. -/
structure Grows (w u : Store β π) : Prop where
  functions {h : Nat} {c : Callable β π} (hc : w.functions[h]? = some c) : u.functions[h]? = some c
  events : w.events <:+ u.events

namespace Grows

theorem refl (w : Store β π) : w.Grows w := ⟨id, List.suffix_refl _⟩

theorem trans {w u v : Store β π} (h : w.Grows u) (h' : u.Grows v) : w.Grows v :=
  ⟨fun hc => h'.functions (h.functions hc), h.events.trans h'.events⟩

theorem handOvers_le {w u : Store β π} (h : w.Grows u) :
    handOvers w.events ≤ handOvers u.events :=
  h.events.sublist.countP_le

end Grows

theorem grows_note (w : Store β π) (e : Event) : w.Grows { w with events := e :: w.events } :=
  ⟨id, List.suffix_cons e w.events⟩

theorem grows_addFunction (w : Store β π) (c : Callable β π) : w.Grows (w.addFunction c).2 := by
  refine ⟨fun {h d} hd => ?_, List.suffix_refl _⟩
  obtain ⟨hlt, rfl⟩ := Array.getElem?_eq_some_iff.1 hd
  exact Array.getElem?_push_lt hlt

end Store

/-- The second run does all that the first does, which is the whole of it if the first is not
cut. -/
structure Deeper (α : Type) (m n : Run Code Nat α) : Prop where
  grows (w : Store Code Nat) : w.Grows (m w).2
  goes_on (w : Store Code Nat) : (m w).2.Grows (n w).2
  same {w u : Store Code Nat} {a : α} (h : m w = (some a, u)) : n w = (some a, u)

namespace Deeper

theorem right_grows {m n : Run Code Nat α} (h : Deeper α m n) (w : Store Code Nat) :
    w.Grows (n w).2 :=
  (h.grows w).trans (h.goes_on w)

theorem of_step {f : Store Code Nat → α × Store Code Nat}
    (hf : ∀ w : Store Code Nat, w.Grows (f w).2) :
    Deeper α (MonadStateOf.modifyGet f) (MonadStateOf.modifyGet f) :=
  ⟨hf, fun _ => .refl _, id⟩

theorem bind {m n : Run Code Nat α} {f g : α → Run Code Nat δ} (h : Deeper α m n)
    (k : ∀ a, Deeper δ (f a) (g a)) : Deeper δ (m >>= f) (n >>= g) := by
  refine ⟨fun w => ?_, fun w => ?_, fun {w v d} hrun => ?_⟩
  · have hw := h.grows w
    rw [Run.bind_apply]
    rcases hm : m w with ⟨_ | a, u⟩ <;> rw [hm] at hw
    · exact hw
    · exact hw.trans ((k a).grows u)
  · have hw := h.goes_on w
    rw [Run.bind_apply, Run.bind_apply]
    rcases hm : m w with ⟨_ | a, u⟩ <;> rw [hm] at hw
    · rcases hn : n w with ⟨_ | b, v⟩ <;> rw [hn] at hw
      · exact hw
      · exact hw.trans ((k b).right_grows v)
    · rw [h.same hm]
      exact (k a).goes_on u
  · rw [Run.bind_apply] at hrun ⊢
    rcases hm : m w with ⟨_ | a, u⟩ <;> rw [hm] at hrun
    · cases hrun
    · rw [h.same hm]
      exact (k a).same hrun

theorem tooDeep {n : Run Code Nat α} (hn : ∀ w : Store Code Nat, w.Grows (n w).2) :
    Deeper α Run.tooDeep n :=
  ⟨fun w => .refl w, hn, fun h => nomatch h⟩

theorem note (e : Event) : Deeper Unit (Run.note e) (Run.note e) :=
  of_step fun w => w.grows_note e

theorem newFunction (c : Callable Code Nat) :
    Deeper Value (Run.newFunction c) (Run.newFunction c) :=
  of_step fun w => w.grows_addFunction c

theorem callable? (h : Nat) : Deeper _ (Run.callable? (β := Code) (π := Nat) h) (Run.callable? h) :=
  ⟨fun w => .refl w, fun w => .refl w, id⟩

end Deeper

theorem congruence_deeper : Congruence Deeper where
  pure _ := ⟨fun w => .refl w, fun w => .refl w, id⟩
  bind := Deeper.bind
  note := Deeper.note
  reference := Deeper.of_step fun _ => ⟨id, List.suffix_refl _⟩
  load _ := ⟨fun w => .refl w, fun w => .refl w, id⟩
  save _ _ := Deeper.of_step fun _ => ⟨id, List.suffix_refl _⟩
  host _ _ := Deeper.newFunction _
  curried _ _ _ _ := Deeper.newFunction _

abbrev Deepens (m n : Eval Code α) : Prop := Lifted Deeper m n

namespace Deepens

theorem pure (a : α) : Deepens (Pure.pure a) (Pure.pure a) := congruence_deeper.done a

theorem bind {m n : Eval Code α} {f g : α → Eval Code δ} (h : Deepens m n)
    (k : ∀ a, Deepens (f a) (g a)) : Deepens (m >>= f) (n >>= g) :=
  congruence_deeper.andThen h k

theorem newFunction (c : Callable Code Nat) : Deepens (Eval.newFunction c) (Eval.newFunction c) :=
  congruence_deeper.lift (Deeper.newFunction c)

theorem reference : Deepens Eval.reference Eval.reference :=
  congruence_deeper.lift congruence_deeper.reference

end Deepens

variable {call call' : Caller Code}

mutual

/-- Code does no less when it calls functions more deeply. -/
theorem deepens_exec (hcall : ∀ f vs, Deepens (call f vs) (call' f vs)) (env : Env) :
    ∀ c : Code, Deepens (c.exec call env) (c.exec call' env)
  | .undefined => .pure _
  | .constant _ => .pure _
  | .lookup site name => congruence_deeper.lookup hcall site env name
  | .topic site => congruence_deeper.claim site _
  | .unary site op argument =>
    (deepens_exec hcall env argument).bind fun v => congruence_deeper.unary hcall site env op v
  | .binary site op left right =>
    (deepens_exec hcall env left).bind fun a => (deepens_exec hcall env right).bind fun b =>
      congruence_deeper.binary hcall site env op a b
  | .logical site op left right => by
    refine Deepens.bind (congruence_deeper.noted _) fun _ => ?_
    refine congruence_deeper.within site (congruence_deeper.act hcall (fun side _ => ?_) _)
    cases side with
    | left => exact deepens_exec hcall env left
    | right => exact deepens_exec hcall env right
  | .coalesce left right => by
    refine Deepens.bind (deepens_exec hcall env left) fun v => ?_
    split
    · exact deepens_exec hcall env right
    · exact .pure v
  | .conditional test consequent alternate => by
    refine Deepens.bind (deepens_exec hcall env test) fun v => ?_
    refine Deepens.bind (congruence_deeper.truthy hcall env v) fun b => ?_
    split
    · exact deepens_exec hcall env consequent
    · exact deepens_exec hcall env alternate
  | .object entries =>
    (deepens_execEntries hcall env entries).bind fun _ => .bind .reference fun _ => .pure _
  | .array elements =>
    (deepens_execItems hcall env elements).bind fun _ => .bind .reference fun _ => .pure _
  | .property site target key =>
    (deepens_exec hcall env target).bind fun t => (deepens_exec hcall env key).bind fun k =>
      congruence_deeper.property hcall site env t k
  | .callBare site callee =>
    (deepens_exec hcall env callee).bind fun f =>
      congruence_deeper.callThrough hcall site env.context f none
  | .call site callee arguments =>
    (deepens_exec hcall env callee).bind fun f =>
      (deepens_execItems hcall env arguments).bind fun vs =>
        congruence_deeper.callThrough hcall site env.context f (some vs)
  | .curry site callee slots =>
    (deepens_exec hcall env callee).bind fun _ => (deepens_execSlots hcall env slots).bind fun _ =>
      .newFunction _
  | .pipe site head stages => by
    refine Deepens.bind (deepens_exec hcall env head) fun v => ?_
    refine Deepens.bind (congruence_deeper.noted _) fun _ => ?_
    refine congruence_deeper.within site (congruence_deeper.act hcall (fun i u => ?_) _)
    exact deepens_execStage hcall env stages i u
  | .lambda _ _ => .newFunction _
  | .letIn _ init body => (deepens_exec hcall env init).bind fun _ => deepens_exec hcall _ body

theorem deepens_execItems (hcall : ∀ f vs, Deepens (call f vs) (call' f vs)) (env : Env) :
    ∀ cs : List (Option Code), Deepens (Code.execItems call env cs) (Code.execItems call' env cs)
  | [] => .pure _
  | none :: cs => (deepens_execItems hcall env cs).bind fun _ => .pure _
  | some c :: cs =>
    (deepens_exec hcall env c).bind fun _ => (deepens_execItems hcall env cs).bind fun _ => .pure _

theorem deepens_execSlots (hcall : ∀ f vs, Deepens (call f vs) (call' f vs)) (env : Env) :
    ∀ cs : List (Option Code), Deepens (Code.execSlots call env cs) (Code.execSlots call' env cs)
  | [] => .pure _
  | none :: cs => (deepens_execSlots hcall env cs).bind fun _ => .pure _
  | some c :: cs =>
    (deepens_exec hcall env c).bind fun _ => (deepens_execSlots hcall env cs).bind fun _ => .pure _

theorem deepens_execEntries (hcall : ∀ f vs, Deepens (call f vs) (call' f vs)) (env : Env) :
    ∀ cs : List (String × Code),
      Deepens (Code.execEntries call env cs) (Code.execEntries call' env cs)
  | [] => .pure _
  | (_, c) :: cs =>
    (deepens_exec hcall env c).bind fun _ =>
      (deepens_execEntries hcall env cs).bind fun _ => .pure _

theorem deepens_execStage (hcall : ∀ f vs, Deepens (call f vs) (call' f vs)) (env : Env) :
    ∀ (cs : List (Bool × Code)) (i : Nat) (v : Value),
      Deepens (Code.execStage call env cs i v) (Code.execStage call' env cs i v)
  | [], _, v => .pure v
  | (_, c) :: _, 0, _ => deepens_exec hcall _ c
  | _ :: cs, i + 1, v => deepens_execStage hcall env cs i v

end

theorem deepens_enter (hcall : ∀ f vs, Deepens (call f vs) (call' f vs)) (h : Nat)
    (vs : List Value) :
    ∀ c : Callable Code Nat,
      Deepens (Eval.enter Code.run call h vs c) (Eval.enter Code.run call' h vs c)
  | .host _ _ => by
    refine Deepens.bind (congruence_deeper.noted _) fun _ => ?_
    exact congruence_deeper.act hcall (fun i => nomatch i) _
  | .lambda names body env => deepens_exec hcall (env.bind names vs) body
  | .curried site context callee _ =>
    congruence_deeper.callThrough hcall site context callee _

theorem deepens_caller_succ {d d' : Nat}
    (ih : ∀ f vs, Deepens (Code.caller d f vs) (Code.caller d' f vs)) (f : Value)
    (vs : List Value) : Deepens (Code.caller (d + 1) f vs) (Code.caller (d' + 1) f vs) := by
  cases f with
  | function h =>
    refine Deepens.bind (congruence_deeper.lift (Deeper.callable? h)) fun o => ?_
    cases o with
    | none => exact congruence_deeper.throw _
    | some c => exact deepens_enter ih h vs c
  | _ => exact congruence_deeper.throw _

theorem deepens_caller {d d' : Nat} (hd : d ≤ d') (f : Value) (vs : List Value) :
    Deepens (Code.caller d f vs) (Code.caller d' f vs) := by
  induction d generalizing d' f vs with
  | zero =>
    have hself : ∀ (n : Nat) (f : Value) (vs : List Value),
        Deepens (Code.caller n f vs) (Code.caller n f vs) := by
      intro n
      induction n with
      | zero => exact fun _ _ => congruence_deeper.lift (Deeper.tooDeep fun w => .refl w)
      | succ n ih => exact deepens_caller_succ ih
    -- The first call is cut at once, so all that is left is that the second one only adds.
    exact Deeper.tooDeep fun w => (hself d' f vs).right_grows w
  | succ d ih =>
    obtain ⟨e, rfl⟩ : ∃ e, d' = e + 1 := ⟨d' - 1, by omega⟩
    exact deepens_caller_succ (fun f vs => ih (by omega) f vs) f vs

end ExprLang
