import ExprLang.Expression
import ExprLang.Proofs.Correspondence.Operations

/-!
What an evaluation shows to those who call it: its result and its calls of host functions. The
functions it has made itself all look the same from outside, and the place of a failure is left out.
-/
namespace ExprLang

variable {H : Nat → Nat → Prop} {n : Nat}

/-- Failures of the same kind and with the same message. -/
structure ExpressionError.SameCause (e e' : ExpressionError) : Prop where
  kind : e.cause.error.Like (fun _ _ => True) e'.cause.error
  message_eq : e.message = e'.message

namespace Value

mutual

/-- A value in which the functions from a handle on all look the same. -/
def blur (n : Nat) : Value → Value
  | .array r vs => .array r (blurItems n vs)
  | .object r es => .object r (blurEntries n es)
  | .function h => .function (min h n)
  | v => v

def blurItems (n : Nat) : List Value → List Value
  | [] => []
  | v :: vs => v.blur n :: blurItems n vs

def blurEntries (n : Nat) : List (String × Value) → List (String × Value)
  | [] => []
  | (key, v) :: es => (key, v.blur n) :: blurEntries n es

end

theorem kind_blur (n : Nat) (v : Value) : (v.blur n).kind = v.kind := by cases v <;> rfl

mutual

theorem blur_of_handles : ∀ {v : Value}, v.handles = [] → v.blur n = v
  | .array r _, h => congrArg (array r) (blurItems_of_handles h)
  | .object r _, h => congrArg (object r) (blurEntries_of_handles h)
  | .undefined, _ | .null, _ | .bool _, _ | .number _, _ | .bigint _, _ | .string _, _ => rfl

theorem blurItems_of_handles : ∀ {vs : List Value}, itemHandles vs = [] → blurItems n vs = vs
  | [], _ => rfl
  | v :: vs, h => by
    obtain ⟨hv, hvs⟩ := List.append_eq_nil_iff.1 h
    rw [blurItems, blur_of_handles hv, blurItems_of_handles hvs]

theorem blurEntries_of_handles : ∀ {es : List (String × Value)}, entryHandles es = [] →
    blurEntries n es = es
  | [], _ => rfl
  | (_, v) :: es, h => by
    obtain ⟨hv, hes⟩ := List.append_eq_nil_iff.1 h
    rw [blurEntries, blur_of_handles hv, blurEntries_of_handles hes]

end

mutual

theorem handles_blur (n : Nat) : ∀ v : Value, (v.blur n).handles = v.handles.map (min · n)
  | .array _ vs => itemHandles_blur n vs
  | .object _ es => entryHandles_blur n es
  | .function _ => rfl
  | .undefined | .null | .bool _ | .number _ | .bigint _ | .string _ => rfl

theorem itemHandles_blur (n : Nat) : ∀ vs : List Value,
    itemHandles (blurItems n vs) = (itemHandles vs).map (min · n)
  | [] => rfl
  | v :: vs => by
    rw [blurItems, itemHandles, handles_blur n v, itemHandles_blur n vs, itemHandles,
      List.map_append]

theorem entryHandles_blur (n : Nat) : ∀ es : List (String × Value),
    entryHandles (blurEntries n es) = (entryHandles es).map (min · n)
  | [] => rfl
  | (_, v) :: es => by
    rw [blurEntries, entryHandles, handles_blur n v, entryHandles_blur n es, entryHandles,
      List.map_append]

end

/-- Values that look the same are the same if one of them holds no function. -/
theorem eq_of_blur {v v' : Value} (h : v.blur n = v'.blur n) (hv : v.handles = []) : v = v' := by
  have hblur : v = v'.blur n := (blur_of_handles hv).symm.trans h
  have hv' : v'.handles = [] := by
    rw [hblur, handles_blur] at hv
    exact List.map_eq_nil_iff.1 hv
  rw [hblur, blur_of_handles hv']

mutual

/-- Values that are alike look the same if the functions paired with each other do. -/
theorem Like.blur_eq (hH : ∀ h h', H h h' → min h n = min h' n) {v v' : Value} :
    Like Eq H v v' → v.blur n = v'.blur n
  | .simple _ => rfl
  | .array hr hvs => by rw [blur, blur, hr, blurItems_eq hH hvs]
  | .object hr hes => by rw [blur, blur, hr, blurEntries_eq hH hes]
  | .function hh => congrArg function (hH _ _ hh)

theorem blurItems_eq (hH : ∀ h h', H h h' → min h n = min h' n) {vs vs' : List Value} :
    List.Forall₂ (Like Eq H) vs vs' → blurItems n vs = blurItems n vs'
  | .nil => rfl
  | .cons h hs => by rw [blurItems, blurItems, h.blur_eq hH, blurItems_eq hH hs]

theorem blurEntries_eq (hH : ∀ h h', H h h' → min h n = min h' n)
    {es es' : List (String × Value)} :
    List.Forall₂ (EntryLike Eq H) es es' → blurEntries n es = blurEntries n es'
  | .nil => rfl
  | .cons (.mk h) hs => by rw [blurEntries, blurEntries, h.blur_eq hH, blurEntries_eq hH hs]

end

end Value

def EvalError.blur (n : Nat) : EvalError → EvalError
  | .unexpectedType expected v => .unexpectedType expected (v.blur n)
  | e => e

namespace EvalError

theorem message_blur (n : Nat) (e : EvalError) : (e.blur n).message = e.message := by
  cases e with
  | unexpectedType expected v =>
    change "Expected " ++ alternatives expected ++ ", but got " ++ (v.blur n).kind ++ " instead" =
      "Expected " ++ alternatives expected ++ ", but got " ++ v.kind ++ " instead"
    rw [v.kind_blur]
  | _ => exact congrArg message rfl

theorem Like.blur_eq (hH : ∀ h h', H h h' → min h n = min h' n) {e e' : EvalError}
    (h : Like (Value.Like Eq H) e e') : e.blur n = e'.blur n := by
  cases h with
  | unexpectedType hv => exact congrArg (EvalError.unexpectedType _) (hv.blur_eq hH)
  | same _ => rfl

theorem like_blur (n : Nat) (e : EvalError) : e.Like (fun _ _ => True) (e.blur n) := by
  cases e with
  | unexpectedType expected v => exact .unexpectedType trivial
  | _ => exact .same rfl

/-- Failures that look the same are of the same kind. -/
theorem like_of_blur {e e' : EvalError} (h : e.blur n = e'.blur n) :
    e.Like (fun _ _ => True) e' := by
  have he := e.like_blur n
  have he' := e'.like_blur n
  rw [h] at he
  generalize e'.blur n = b at he he'
  cases he <;> cases he'
  · exact .unexpectedType trivial
  · contradiction
  · contradiction
  · exact .same ‹_›

end EvalError

/-- A call of a host function as it looks from outside. -/
def HostCall.blur (n : Nat) (c : HostCall) : HostCall :=
  ⟨min c.handle n, c.name, Value.blurItems n c.arguments⟩

theorem HostCall.Like.blur_eq (hH : ∀ h h', H h h' → min h n = min h' n) {a b : HostCall}
    (h : Like H a b) : a.blur n = b.blur n := by
  cases h with
  | same => rfl
  | paired hh hvs => rw [HostCall.blur, HostCall.blur, hH _ _ hh, Value.blurItems_eq hH hvs]

/-- The result of an evaluation and its calls of host functions, the latest first. -/
structure Observation where
  result : Except EvalError Value
  calls : List HostCall

/-- What can be seen of an evaluation when the functions from a handle on look the same. -/
def observe (n : Nat) (r : Except Fault Value) (u : Store Code Nat) : Observation :=
  ⟨(r.map (·.blur n)).mapError (·.error.blur n), (hostCalls u.events).map (·.blur n)⟩

/-- What an evaluation shows if calls are nested deeply enough. -/
def Code.Shows (c : Code) (env : Env) (w : Store Code Nat) (o : Observation) : Prop :=
  ∃ depth r u, c.eval depth env w = (some r, u) ∧ o = observe w.functions.size r u

/-- An evaluation shows the same however deeply calls may be nested. -/
theorem Code.Shows.unique {c : Code} {env : Env} {w : Store Code Nat} {o o' : Observation}
    (h : c.Shows env w o) (h' : c.Shows env w o') : o = o' := by
  obtain ⟨d, r, u, hrun, rfl⟩ := h
  obtain ⟨d', r', u', hrun', rfl⟩ := h'
  have hdeep : c.eval (max d d') env w = (some r, u) :=
    (deepens_exec (deepens_caller (Nat.le_max_left d d')) env c).same hrun
  have hdeep' : c.eval (max d d') env w = (some r', u') :=
    (deepens_exec (deepens_caller (Nat.le_max_right d d')) env c).same hrun'
  cases hdeep.symm.trans hdeep'
  rfl

namespace Comparison

variable {S : Comparison} {w w' : Store Code Nat}

theorem observe_eq (hS : ¬ S.strict) (hw : S.StoreLike H w w')
    (hH : ∀ h h', H h h' → min h n = min h' n) {r r' : Except Fault Value}
    (hr : S.Results (fun H => Value.Like S.references H) H r r') :
    observe n r w = observe n r' w' := by
  have hcalls : (hostCalls w.events).map (·.blur n) = (hostCalls w'.events).map (·.blur n) := by
    have hlike := hw.hostCalls hS
    generalize hostCalls w.events = cs, hostCalls w'.events = cs' at hlike
    induction hlike with
    | nil => rfl
    | cons h _ ih => rw [List.map_cons, List.map_cons, h.blur_eq hH, ih]
  have hresult : (r.map (·.blur n)).mapError (·.error.blur n) =
      (r'.map (·.blur n)).mapError (·.error.blur n) := by
    cases (S.outcomesLike_iff hS r r').1 hr with
    | ok hv => exact congrArg Except.ok (hv.blur_eq hH)
    | error he => exact congrArg Except.error (he.blur_eq hH)
  rw [observe, observe, hcalls, hresult]

end Comparison

end ExprLang
