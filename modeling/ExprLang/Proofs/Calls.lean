import ExprLang.Machine

/-!
What a call binds. A lambda finds an argument under the name of its position, the first of equal
names counting; a call that was made with placeholders gets its arguments in their order.
-/
namespace ExprLang

variable {β α : Type}

namespace Frame

theorem lookup?_parameters (names : List String) (vs : List Value) (name : String) :
    lookup? ⟨names, vs.take names.length⟩ name =
      (names.idxOf? name).map fun i => (vs[i]?).getD .undefined := by
  unfold lookup? List.idxOf?
  cases hi : names.findIdx? (· == name) with
  | none => rfl
  | some i =>
    obtain ⟨hlt, -⟩ := List.findIdx?_eq_some_iff_getElem.1 hi
    rw [Option.map_some, Option.map_some, List.getElem?_take_of_lt hlt]

end Frame

namespace Env

theorem bind_context (env : Env) (names : List String) (vs : List Value) :
    (env.bind names vs).context = env.context := by
  unfold bind
  split <;> rfl

theorem lookup?_bind (env : Env) (names : List String) (vs : List Value) (name : String) :
    (env.bind names vs).scope.lookup? name =
      ((names.idxOf? name).map fun i => (vs[i]?).getD .undefined).or (env.scope.lookup? name) := by
  unfold bind
  split
  case isTrue h => rw [List.isEmpty_iff.1 h, List.idxOf?_nil, Option.map_none, Option.none_or]
  case isFalse h =>
    rw [← Frame.lookup?_parameters]
    change List.findSome? _ (_ :: _) = _
    rw [List.findSome?_cons]
    cases Frame.lookup? ⟨names, vs.take names.length⟩ name <;> rfl

/-- An environment in which names stand for the arguments at their positions. Missing arguments are
undefined, those past the last name are dropped, and other names keep their meaning. -/
structure Binds (env : Env) (names : List String) (vs : List Value) (inner : Env) : Prop where
  context_eq : inner.context = env.context
  lookup?_eq (name : String) : inner.scope.lookup? name =
    ((names.idxOf? name).map fun i => (vs[i]?).getD .undefined).or (env.scope.lookup? name)

theorem binds_bind (env : Env) (names : List String) (vs : List Value) :
    env.Binds names vs (env.bind names vs) :=
  ⟨env.bind_context names vs, env.lookup?_bind names vs⟩

end Env

namespace Eval

theorem length_fill (slots : List (Option Value)) (vs : List Value) :
    (fill slots vs).length = slots.length := by
  induction slots generalizing vs with
  | nil => rfl
  | cons slot slots ih =>
    rcases slot with _ | v
    · cases vs <;> exact congrArg (· + 1) (ih _)
    · exact congrArg (· + 1) (ih vs)

theorem fill_given {slots : List (Option Value)} {i : Nat} {v : Value} (vs : List Value)
    (h : slots[i]? = some (some v)) : (fill slots vs)[i]? = some v := by
  induction slots generalizing vs i with
  | nil => cases h
  | cons slot slots ih =>
    cases i with
    | zero =>
      cases Option.some.inj h
      rfl
    | succ i =>
      rcases slot with _ | u
      · cases vs <;> exact ih _ h
      · exact ih vs h

theorem fill_missing {slots : List (Option Value)} {i : Nat} (vs : List Value)
    (h : slots[i]? = some none) :
    (fill slots vs)[i]? =
      some ((vs[((slots.take i).filter (·.isNone)).length]?).getD .undefined) := by
  induction slots generalizing vs i with
  | nil => cases h
  | cons slot slots ih =>
    cases i with
    | zero =>
      cases Option.some.inj h
      cases vs <;> rfl
    | succ i =>
      rcases slot with _ | u
      · cases vs with
        | nil => simpa [fill] using ih [] h
        | cons v vs => simpa [fill] using ih vs h
      · simpa [fill] using ih vs h

/-- Arguments of which the given ones are in their places, each missing one being filled with the
value that comes after as many as are missing before it. -/
structure Fills (slots : List (Option Value)) (vs arguments : List Value) : Prop where
  length_eq : arguments.length = slots.length
  given (i : Nat) (v : Value) (h : slots[i]? = some (some v)) : arguments[i]? = some v
  missing (i : Nat) (h : slots[i]? = some none) : arguments[i]? =
    some ((vs[((slots.take i).filter (·.isNone)).length]?).getD .undefined)

theorem fills_fill (slots : List (Option Value)) (vs : List Value) :
    Fills slots vs (fill slots vs) :=
  ⟨length_fill slots vs, fun _ _ => fill_given vs, fun _ => fill_missing vs⟩

theorem bind_apply {δ : Type} (m : Eval β α) (f : α → Eval β δ) (w : Store β Nat) :
    (m >>= f).run w =
      match m.run w with
      | (some (.ok a), u) => (f a).run u
      | (some (.error e), u) => (some (.error e), u)
      | (none, u) => (none, u) := by
  rw [ExceptT.run_bind, Run.bind_apply]
  rcases m.run w with ⟨_ | _ | a, u⟩ <;> rfl

theorem within_apply (site : Nat) (m : Eval β α) (w : Store β Nat) :
    (within site m).run w = ((m.run w).1.map (·.mapError (·.orSite site)), (m.run w).2) := by
  change (m.run >>= _) w = _
  rw [Run.bind_apply]
  rcases m.run w with ⟨_ | r, u⟩ <;> rfl

theorem call_function (run : Caller β → β → Env → Eval β Value) (n h : Nat) (vs : List Value)
    {w : Store β Nat} {c : Callable β Nat} (hc : w.functions[h]? = some c) :
    (call run (n + 1) (.function h) vs).run w = (enter run (call run n) h vs c).run w := by
  have hcall : (callable? h : Eval β _).run w = (some (.ok (some c)), w) := by
    rw [← hc]
    rfl
  rw [call, bind_apply, hcall]

theorem act_run {ι : Type} (call : Caller β) (supply : ι → Value → Eval β Value) (i : ι) (v : Value)
    (next : Value → Action ι (Except Fault Value)) :
    act call supply (.run i v (.orFault next)) =
      (do let w ← supply i v; act call supply (next w)) := by
  refine ExceptT.ext ?_
  rw [ExceptT.run_bind]
  refine congrArg ((supply i v).run >>= ·) (funext fun r => ?_)
  cases r <;> rfl

end Eval

end ExprLang
