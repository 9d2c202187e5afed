import ExprLang.Policy.Standard
import ExprLang.Proofs.Termination.Handles
import Mathlib.Logic.Relator
import Mathlib.Data.List.Forall2
import Mathlib.Order.Basic

/-!
Values that look alike. Their contents are the same, and they hold functions at the same places; the
references of their arrays and objects are paired by one relation and their functions by another.
As long as nothing is paired with two partners, no standard operation can tell such values apart.
-/
namespace ExprLang

variable {α α' δ δ' ε ε' : Type}

/-- Both succeed with related results or both fail with related errors. -/
inductive Matches (E : ε → ε' → Prop) (V : α → α' → Prop) : Except ε α → Except ε' α' → Prop where
  | ok {a : α} {a' : α'} (h : V a a') : Matches E V (.ok a) (.ok a')
  | error {e : ε} {e' : ε'} (h : E e e') : Matches E V (.error e) (.error e')

namespace Matches

variable {E E' : ε → ε' → Prop} {V V' : α → α' → Prop}

theorem mono {x : Except ε α} {x' : Except ε' α'} (h : Matches E V x x')
    (hE : ∀ e e', E e e' → E' e e') (hV : ∀ a a', V a a' → V' a a') : Matches E' V' x x' := by
  cases h with
  | ok h => exact .ok (hV _ _ h)
  | error h => exact .error (hE _ _ h)

theorem bind {W : δ → δ' → Prop} {x : Except ε α} {x' : Except ε' α'} {f : α → Except ε δ}
    {f' : α' → Except ε' δ'} (h : Matches E V x x')
    (k : ∀ a a', V a a' → Matches E W (f a) (f' a')) : Matches E W (x >>= f) (x' >>= f') := by
  cases h with
  | ok h => exact k _ _ h
  | error h => exact .error h

theorem map {W : δ → δ' → Prop} {x : Except ε α} {x' : Except ε' α'} {f : α → δ} {f' : α' → δ'}
    (h : Matches E V x x') (k : ∀ a a', V a a' → W (f a) (f' a')) :
    Matches E W (x.map f) (x'.map f') := by
  cases h with
  | ok h => exact .ok (k _ _ h)
  | error h => exact .error h

end Matches

def EvalError.received? : EvalError → Option Value
  | .unexpectedType _ v => some v
  | _ => none

/-- Failures of the same kind and with the same message, on account of related values. -/
inductive EvalError.Like (V : Value → Value → Prop) : EvalError → EvalError → Prop where
  | unexpectedType {expected : List String} {v v' : Value} (h : V v v') :
    Like V (.unexpectedType expected v) (.unexpectedType expected v')
  | same {e : EvalError} (h : e.received? = none) : Like V e e

theorem EvalError.Like.mono {V V' : Value → Value → Prop} {e e' : EvalError} (h : Like V e e')
    (hV : ∀ v v', V v v' → V' v v') : Like V' e e' := by
  cases h with
  | unexpectedType h => exact .unexpectedType (hV _ _ h)
  | same h => exact .same h

namespace Value

mutual

/-- The references are paired by `R` and the functions by `H`. -/
inductive Like (R H : Nat → Nat → Prop) : Value → Value → Prop where
  | simple {v : Value} (h : v.isSimple) : Like R H v v
  | array {r r' : Nat} {vs vs' : List Value} (hr : R r r') (hvs : List.Forall₂ (Like R H) vs vs') :
    Like R H (.array r vs) (.array r' vs')
  | object {r r' : Nat} {es es' : List (String × Value)} (hr : R r r')
    (hes : List.Forall₂ (EntryLike R H) es es') : Like R H (.object r es) (.object r' es')
  | function {h h' : Nat} (hh : H h h') : Like R H (.function h) (.function h')

inductive EntryLike (R H : Nat → Nat → Prop) : String × Value → String × Value → Prop where
  | mk {key : String} {v v' : Value} (h : Like R H v v') : EntryLike R H (key, v) (key, v')

end

variable {R H H' : Nat → Nat → Prop} {v v' a a' b b' : Value}

mutual

theorem Like.mono_on {v v' : Value} : Like R H v v' →
    (∀ h ∈ v.handles, ∀ h', H h h' → H' h h') → Like R H' v v'
  | .simple h, _ => .simple h
  | .array hr hvs, hH => .array hr (itemsLike_mono_on hvs hH)
  | .object hr hes, hH => .object hr (entriesLike_mono_on hes hH)
  | .function hh, hH => .function (hH _ (List.mem_singleton_self _) _ hh)

theorem itemsLike_mono_on {vs vs' : List Value} : List.Forall₂ (Like R H) vs vs' →
    (∀ h ∈ itemHandles vs, ∀ h', H h h' → H' h h') → List.Forall₂ (Like R H') vs vs'
  | .nil, _ => .nil
  | .cons h hs, hH =>
    .cons (h.mono_on fun n hn => hH n (List.mem_append_left _ hn))
      (itemsLike_mono_on hs fun n hn => hH n (List.mem_append_right _ hn))

theorem entriesLike_mono_on {es es' : List (String × Value)} :
    List.Forall₂ (EntryLike R H) es es' → (∀ h ∈ entryHandles es, ∀ h', H h h' → H' h h') →
      List.Forall₂ (EntryLike R H') es es'
  | .nil, _ => .nil
  | .cons (.mk h) hs, hH =>
    .cons (.mk (h.mono_on fun n hn => hH n (List.mem_append_left _ hn)))
      (entriesLike_mono_on hs fun n hn => hH n (List.mem_append_right _ hn))

end

theorem Like.mono (hH : H ≤ H') {v v' : Value} (h : Like R H v v') : Like R H' v v' :=
  h.mono_on fun _ _ => hH _

theorem itemsLike_mono (hH : H ≤ H') {vs vs' : List Value} (h : List.Forall₂ (Like R H) vs vs') :
    List.Forall₂ (Like R H') vs vs' :=
  h.imp fun _ _ => .mono hH

theorem optionLike_mono (hH : H ≤ H') {o o' : Option Value} (h : Option.Rel (Like R H) o o') :
    Option.Rel (Like R H') o o' := by
  cases h with
  | none => exact .none
  | some h => exact .some (h.mono hH)

theorem EntryLike.mono (hH : H ≤ H') {e e' : String × Value} (h : EntryLike R H e e') :
    EntryLike R H' e e' := by
  obtain ⟨h⟩ := h
  exact .mk (h.mono hH)

mutual

/-- A value is like itself when its functions are paired with themselves. -/
theorem like_self (hR : ∀ r, R r r) : ∀ v : Value, (∀ h ∈ v.handles, H h h) → Like R H v v
  | .array r vs, h => .array (hR r) (itemsLike_self hR vs h)
  | .object r es, h => .object (hR r) (entriesLike_self hR es h)
  | .function n, h => .function (h n (List.mem_singleton_self n))
  | .undefined, _ | .null, _ | .bool _, _ | .number _, _ | .bigint _, _ | .string _, _ =>
    .simple rfl

theorem itemsLike_self (hR : ∀ r, R r r) : ∀ vs : List Value, (∀ h ∈ itemHandles vs, H h h) →
    List.Forall₂ (Like R H) vs vs
  | [], _ => .nil
  | v :: vs, h =>
    .cons (like_self hR v fun n hn => h n (List.mem_append_left _ hn))
      (itemsLike_self hR vs fun n hn => h n (List.mem_append_right _ hn))

theorem entriesLike_self (hR : ∀ r, R r r) : ∀ es : List (String × Value),
    (∀ h ∈ entryHandles es, H h h) → List.Forall₂ (EntryLike R H) es es
  | [], _ => .nil
  | (_, v) :: es, h =>
    .cons (.mk (like_self hR v fun n hn => h n (List.mem_append_left _ hn)))
      (entriesLike_self hR es fun n hn => h n (List.mem_append_right _ hn))

end

mutual

/-- Functions are at the same places of values that are alike. -/
theorem Like.handles {v v' : Value} : Like R H v v' → List.Forall₂ H v.handles v'.handles
  | .simple h => by cases v <;> first | exact .nil | cases h
  | .array _ hvs => itemsLike_handles hvs
  | .object _ hes => entriesLike_handles hes
  | .function hh => .cons hh .nil

theorem itemsLike_handles {vs vs' : List Value} :
    List.Forall₂ (Like R H) vs vs' → List.Forall₂ H (itemHandles vs) (itemHandles vs')
  | .nil => .nil
  | .cons h hs => List.rel_append h.handles (itemsLike_handles hs)

theorem entriesLike_handles {es es' : List (String × Value)} :
    List.Forall₂ (EntryLike R H) es es' → List.Forall₂ H (entryHandles es) (entryHandles es')
  | .nil => .nil
  | .cons (.mk h) hs => List.rel_append h.handles (entriesLike_handles hs)

end

mutual

/-- Values that are alike are equal if they share their references and hold no function. -/
theorem Like.eq {v v' : Value} : Like Eq H v v' → v.handles = [] → v = v'
  | .simple _, _ => rfl
  | .array hr hvs, h => by rw [hr, itemsLike_eq hvs h]
  | .object hr hes, h => by rw [hr, entriesLike_eq hes h]
  | .function _, h => nomatch h

theorem itemsLike_eq {vs vs' : List Value} :
    List.Forall₂ (Like Eq H) vs vs' → itemHandles vs = [] → vs = vs'
  | .nil, _ => rfl
  | .cons h hs, hh => by
    obtain ⟨hv, hvs⟩ := List.append_eq_nil_iff.1 hh
    rw [Like.eq h hv, itemsLike_eq hs hvs]

theorem entriesLike_eq {es es' : List (String × Value)} :
    List.Forall₂ (EntryLike Eq H) es es' → entryHandles es = [] → es = es'
  | .nil, _ => rfl
  | .cons (.mk h) hs, hh => by
    obtain ⟨hv, hvs⟩ := List.append_eq_nil_iff.1 hh
    rw [Like.eq h hv, entriesLike_eq hs hvs]

end

/-! What can be seen of a value from outside. -/

namespace Like

theorem isSimple (h : Like R H v v') : v.isSimple = v'.isSimple := by cases h <;> rfl

theorem isObject (h : Like R H v v') : v.isObject = v'.isObject := by cases h <;> rfl

theorem isFunction (h : Like R H v v') : v.isFunction = v'.isFunction := by cases h <;> rfl

theorem isNullish (h : Like R H v v') : v.isNullish = v'.isNullish := by cases h <;> rfl

theorem isTruthy (h : Like R H v v') : v.isTruthy = v'.isTruthy := by cases h <;> rfl

theorem kind (h : Like R H v v') : v.kind = v'.kind := by cases h <;> rfl

theorem typeTag (h : Like R H v v') : v.typeTag = v'.typeTag := by cases h <;> rfl

theorem text (h : Like R H v v') : v.text = v'.text := by cases h <;> rfl

theorem propertyKey? (h : Like R H v v') : v.propertyKey? = v'.propertyKey? := by
  unfold Value.propertyKey?
  rw [h.isSimple, h.text]

end Like

theorem itemsLike_getElem? {vs vs' : List Value} (h : List.Forall₂ (Like R H) vs vs') (i : Nat) :
    Option.Rel (Like R H) vs[i]? vs'[i]? := by
  induction h generalizing i with
  | nil => exact .none
  | cons h _ ih =>
    cases i with
    | zero => exact .some h
    | succ i => exact ih i

theorem entriesLike_lookup {es es' : List (String × Value)}
    (h : List.Forall₂ (EntryLike R H) es es') (key : String) :
    Option.Rel (Like R H) (es.lookup key) (es'.lookup key) := by
  induction h with
  | nil => exact .none
  | cons h _ ih =>
    obtain ⟨h⟩ := h
    simp only [List.lookup_cons]
    split
    · exact .some h
    · exact ih

theorem entriesLike_any {es es' : List (String × Value)} (h : List.Forall₂ (EntryLike R H) es es')
    (key : String) : (es.any fun e => e.1 == key) = es'.any fun e => e.1 == key := by
  induction h with
  | nil => rfl
  | cons h _ ih =>
    obtain ⟨h⟩ := h
    rw [List.any_cons, List.any_cons, ih]

theorem like_getD {o o' : Option Value} (h : Option.Rel (Like R H) o o') :
    Like R H (o.getD .undefined) (o'.getD .undefined) := by
  cases h with
  | none => exact .simple rfl
  | some h => exact h

theorem Like.ownProperty? (h : Like R H v v') (key : String) :
    Option.Rel (Like R H) (v.ownProperty? key) (v'.ownProperty? key) := by
  cases h with
  | simple h => cases v <;> first | exact .none | cases h
  | function _ => exact .none
  | object _ hes => exact entriesLike_lookup hes key
  | @array r r' vs vs' _ hvs =>
    simp only [Value.ownProperty?]
    rw [hvs.length_eq]
    split
    · exact .some (.simple rfl)
    · cases arrayIndex? key vs'.length with
      | none => exact .none
      | some i => exact itemsLike_getElem? hvs i

theorem Like.hasOwnProperty (h : Like R H v v') (key : String) :
    v.hasOwnProperty key = v'.hasOwnProperty key := by
  cases h with
  | simple _ | function _ => rfl
  | object _ hes => exact entriesLike_any hes key
  | array _ hvs => simp only [Value.hasOwnProperty, hvs.length_eq]

/-! Making objects: equal keys take the same places on both sides. -/

theorem entriesLike_putEntry {es es' : List (String × Value)} {e e' : String × Value}
    (hes : List.Forall₂ (EntryLike R H) es es') (he : EntryLike R H e e') :
    List.Forall₂ (EntryLike R H) (putEntry es e) (putEntry es' e') := by
  obtain ⟨hv⟩ := he
  unfold putEntry
  rw [entriesLike_any hes]
  split
  · refine List.forall₂_map_left_iff.2 (List.forall₂_map_right_iff.2 (hes.imp ?_))
    rintro _ _ ⟨h⟩
    simp only
    split
    · exact .mk hv
    · exact .mk h
  · exact List.rel_append hes (.cons (.mk hv) .nil)

theorem Like.ofEntries {r r' : Nat} (hr : R r r') {es es' : List (String × Value)}
    (hes : List.Forall₂ (EntryLike R H) es es') :
    Like R H (Value.ofEntries r es) (Value.ofEntries r' es') := by
  refine .object hr ?_
  suffices ∀ acc acc', List.Forall₂ (EntryLike R H) acc acc' →
      List.Forall₂ (EntryLike R H) (es.foldl putEntry acc) (es'.foldl putEntry acc') from
    this [] [] .nil
  induction hes with
  | nil => exact fun _ _ hacc => hacc
  | cons he _ ih => exact fun _ _ hacc => ih _ _ (entriesLike_putEntry hacc he)

/-- A result of an operation, or the reason why there is none. -/
abbrev Answers (R H : Nat → Nat → Prop) : Except EvalError Value → Except EvalError Value → Prop :=
  Matches (EvalError.Like (Like R H)) (Like R H)

theorem Like.property (ha : Like R H a a') (hb : Like R H b b') :
    Answers R H (a.property b) (a'.property b') := by
  unfold Value.property
  rw [ha.isNullish, ha.isObject, hb.propertyKey?]
  split
  · exact .ok ha
  split
  · exact .error (.unexpectedType ha)
  split
  · exact .error (.unexpectedType hb)
  · exact .ok (like_getD (ha.ownProperty? _))

theorem Like.hasKey (ha : Like R H a a') (hb : Like R H b b') :
    Answers R H (a.hasKey b) (a'.hasKey b') := by
  unfold Value.hasKey
  rw [ha.propertyKey?, hb.isObject, ha.kind, hb.kind]
  split
  · rw [hb.hasOwnProperty]
    split
    · exact .ok (.simple rfl)
    · exact .error (.same rfl)
  · exact .error (.same rfl)

theorem Like.concat (ha : Like R H a a') (hb : Like R H b b') :
    Like R H (a.concat b) (a'.concat b') := by
  unfold Value.concat
  rw [ha.text, hb.text]
  exact .simple rfl

theorem Like.strictEquals (hR : Relator.BiUnique R) (hH : Relator.BiUnique H)
    (ha : Like R H a a') (hb : Like R H b b') : a.strictEquals b = a'.strictEquals b' := by
  have paired : ∀ {P : Nat → Nat → Prop} {x x' y y' : Nat}, Relator.BiUnique P → P x x' → P y y' →
      (x == y) = (x' == y') := by
    intro P x x' y y' hP hx hy
    rw [Bool.eq_iff_iff, beq_iff_eq, beq_iff_eq]
    exact ⟨fun h => hP.2 (h ▸ hx) hy, fun h => hP.1 (h ▸ hx) hy⟩
  cases ha with
  | simple ha =>
    cases hb with
    | simple _ => rfl
    | _ => cases a <;> first | rfl | cases ha
  | array hr _ =>
    cases hb with
    | simple hb => cases b <;> first | rfl | cases hb
    | array hq _ => exact paired hR hr hq
    | _ => rfl
  | object hr _ =>
    cases hb with
    | simple hb => cases b <;> first | rfl | cases hb
    | object hq _ => exact paired hR hr hq
    | _ => rfl
  | function hh =>
    cases hb with
    | simple hb => cases b <;> first | rfl | cases hb
    | function hg => exact paired hH hh hg
    | _ => rfl

end Value

open Value

variable {R H : Nat → Nat → Prop} {v v' a a' b b' : Value}

theorem EvalError.Like.message_eq {e e' : EvalError} (h : Like (Value.Like R H) e e') :
    e.message = e'.message := by
  cases h with
  | @unexpectedType expected v v' hv =>
    change "Expected " ++ alternatives expected ++ ", but got " ++ v.kind ++ " instead" =
      "Expected " ++ alternatives expected ++ ", but got " ++ v'.kind ++ " instead"
    rw [hv.kind]
  | same _ => rfl

/-- What is read off a value that must be simple, any other one being at fault itself. -/
theorem Value.Like.accepts {f : Value → Except EvalError α} (expected : List String)
    (hfault : ∀ v e, f v = .error e → e = .unexpectedType expected v)
    (hsimple : ∀ v, v.isSimple = false → f v = .error (.unexpectedType expected v))
    (h : Like R H v v') : Matches (EvalError.Like (Like R H)) Eq (f v) (f v') := by
  by_cases hv : v.isSimple
  · cases h with
    | simple _ =>
      cases hr : f v with
      | ok x => exact .ok rfl
      | error e => exact hfault v e hr ▸ .error (.unexpectedType (.simple hv))
    | _ => cases hv
  · have hv := Bool.eq_false_iff.2 hv
    rw [hsimple v hv, hsimple v' (h.isSimple ▸ hv)]
    exact .error (.unexpectedType h)

theorem Numeric.ofValue_like (h : Like R H v v') :
    Matches (EvalError.Like (Like R H)) Eq (ofValue v) (ofValue v') := by
  refine h.accepts ["number", "bigint"] (fun v e he => ?_) fun v hv => ?_
  · unfold ofValue at he
    split at he
    · split at he <;> cases he
      rfl
    · cases he
    · cases he
      rfl
  · cases v <;> first | rfl | cases hv

theorem Comparable.ofValue_like (h : Like R H v v') :
    Matches (EvalError.Like (Like R H)) Eq (ofValue v) (ofValue v') := by
  refine h.accepts ["number", "bigint", "string"] (fun v e he => ?_) fun v hv => ?_
  · unfold ofValue at he
    split at he
    · split at he <;> cases he
      rfl
    · cases he
    · cases he
    · cases he
      rfl
  · cases v <;> first | rfl | cases hv

theorem Value.Like.order? (ha : Like R H a a') (hb : Like R H b b') :
    Matches (EvalError.Like (Like R H)) Eq (a.order? b) (a'.order? b') := by
  refine (Comparable.ofValue_like ha).bind fun x _ hx => ?_
  subst hx
  refine (Comparable.ofValue_like hb).bind fun y _ hy => ?_
  subst hy
  exact .ok rfl

namespace Arithmetic

/-- What big integers can do wrong is not put down to a value. -/
theorem apply_like {float : Float → Float → Float} {big : Int → Int → Except EvalError Int}
    (hbig : ∀ m n e, big m n = .error e → e.received? = none) (ha : Like R H a a')
    (hb : Like R H b b') : Answers R H (apply float big a b) (apply float big a' b') := by
  refine (Numeric.ofValue_like ha).bind fun x _ hx => ?_
  subst hx
  refine (Numeric.ofValue_like hb).bind fun y _ hy => ?_
  subst hy
  cases x with
  | float x =>
    cases y with
    | float y => exact .ok (.simple rfl)
    | big n => exact .error (.same rfl)
  | big m =>
    cases y with
    | float y => exact .error (.same rfl)
    | big n =>
      simp only
      cases hr : big m n with
      | ok k => exact .ok (.simple rfl)
      | error e => exact .error (.same (hbig m n e hr))

theorem received?_bigPower {m n : Int} {e : EvalError} (h : bigPower m n = .error e) :
    e.received? = none := by
  unfold bigPower at h
  split at h
  · cases h
    rfl
  · simp only at h
    split at h
    · cases h
    · split at h
      · cases h
      · cases h
        rfl

theorem negate_like (h : Like R H v v') : Answers R H (negate v) (negate v') := by
  refine (Numeric.ofValue_like h).bind fun x _ hx => ?_
  subst hx
  cases x <;> exact .ok (.simple rfl)

end Arithmetic

namespace Policy.Standard

theorem unary_like (op : UnaryOp) (h : Like R H v v') :
    Answers R H (unary op v) (unary op v') := by
  cases op with
  | plus =>
    refine (Numeric.ofValue_like h).map fun x _ hx => ?_
    subst hx
    cases x <;> exact .simple rfl
  | minus => exact Arithmetic.negate_like h
  | not =>
    simp only [unary, h.isTruthy]
    exact .ok (.simple rfl)
  | typeof =>
    simp only [unary, h.typeTag]
    exact .ok (.simple rfl)

theorem relation_like (test : Ordering → Bool) (ha : Like R H a a') (hb : Like R H b b') :
    Answers R H (relation test a b) (relation test a' b') := by
  refine (ha.order? hb).map fun o _ ho => ?_
  subst ho
  exact .simple rfl

theorem binary_like (hR : Relator.BiUnique R) (hH : Relator.BiUnique H) (op : BinaryOp)
    (ha : Like R H a a') (hb : Like R H b b') : Answers R H (binary op a b) (binary op a' b') := by
  cases op with
  | add | sub | mul => exact Arithmetic.apply_like (fun _ _ _ h => nomatch h) ha hb
  | div | mod =>
    refine Arithmetic.apply_like (fun m n e h => ?_) ha hb
    split at h
    · cases h
      rfl
    · cases h
  | pow => exact Arithmetic.apply_like (fun _ _ _ h => Arithmetic.received?_bigPower h) ha hb
  | concat => exact .ok (ha.concat hb)
  | eq | notEq =>
    simp only [binary, ha.strictEquals hR hH hb]
    exact .ok (.simple rfl)
  | less | lessEq | greater | greaterEq => exact relation_like _ ha hb
  | in_ => exact ha.hasKey hb

theorem received?_resolve {name : String} {globals data : Option Value}
    {e : EvalError} (h : resolve name globals data = .error e) : e.received? = none := by
  unfold resolve at h
  split at h
  · cases h
    rfl
  split at h
  · cases h
  split at h
  · cases h
  · cases h
    rfl

end Policy.Standard

end ExprLang
