import ExprLang.Host
import ExprLang.Proofs.Correspondence.Stores

/-!
The library of host functions uses the functions among its arguments only by calling them and
handing them on.
-/
namespace ExprLang

open Value (Like Answers)

variable {H : Nat → Nat → Prop} {v v' f f' : Value} {vs vs' made made' : List Value}

/-- Actions of host functions that go side by side. -/
abbrev ActAlike (H : Nat → Nat → Prop) :
    Hook (Except Fault Value) → Hook (Except Fault Value) → Prop :=
  Request.Alike HostFunction.Alike OutcomesLike H

namespace ActAlike

theorem ok (h : Like Eq H v v') : ActAlike H (.ok v) (.ok v') := .answer (.ok h)

theorem fail {e e' : EvalError} (h : e.Like (Like Eq H) e') : ActAlike H (.fail e) (.fail e') :=
  .answer (.error h)

theorem ofExcept {r r' : Except EvalError Value} (h : Answers Eq H r r') :
    ActAlike H (.ofExcept r) (.ofExcept r') := by
  cases h with
  | ok hv => exact .ok hv
  | error he => exact .fail he

theorem array (h : List.Forall₂ (Like Eq H) vs vs') : ActAlike H (.array vs) (.array vs') :=
  .fresh fun _ => ActAlike.ok (.array rfl h)

/-- What goes on only if a call succeeds. -/
theorem callOrFault (hf : Like Eq H f f') (hvs : List.Forall₂ (Like Eq H) vs vs')
    {next next' : Value → Hook (Except Fault Value)}
    (h : ∀ H', H ≤ H' → ∀ v v', Like Eq H' v v' → ActAlike H' (next v) (next' v')) :
    ActAlike H (.call f vs (.orFault next)) (.call f' vs' (.orFault next')) := by
  refine .call hf hvs fun H' hle _ r r' hr => ?_
  cases hr with
  | ok hv => exact h H' hle _ _ hv
  | error hf => exact .answer (.error hf)

end ActAlike

namespace Host

theorem like_first (h : List.Forall₂ (Like Eq H) vs vs') : Like Eq H (first vs) (first vs') := by
  cases h with
  | nil => exact .simple rfl
  | cons h _ => exact h

theorem like_second (h : List.Forall₂ (Like Eq H) vs vs') : Like Eq H (second vs) (second vs') :=
  like_first (List.forall₂_drop 1 h)

theorem like_third (h : List.Forall₂ (Like Eq H) vs vs') : Like Eq H (third vs) (third vs') :=
  like_first (List.forall₂_drop 2 h)

theorem texts_eq (h : List.Forall₂ (Like Eq H) vs vs') :
    vs.map (·.text) = vs'.map (·.text) := by
  induction h with
  | nil => rfl
  | cons h _ ih => rw [List.map_cons, List.map_cons, h.text, ih]

theorem alike_operator {op : Value → Value → Except EvalError Value}
    (hop : ∀ {H : Nat → Nat → Prop} {a a' b b' : Value}, Like Eq H a a' → Like Eq H b b' →
      Answers Eq H (op a b) (op a' b')) : HostFunction.Alike H (operator op) (operator op) :=
  .of fun _ _ _ _ _ h => ActAlike.ofExcept (hop (like_first h) (like_second h))

theorem alike_applyThen {next : Except Fault Value → Hook (Except Fault Value)}
    (hnext : ∀ {H : Nat → Nat → Prop} {r r' : Except Fault Value}, OutcomesLike H r r' →
      ActAlike H (next r) (next r')) : HostFunction.Alike H (applyThen next) (applyThen next) :=
  .of fun _ _ _ _ _ h => .call (like_first h) (List.forall₂_drop 1 h) fun _ _ _ _ _ hr => hnext hr

theorem alike_dropSite {r r' : Except Fault Value} (h : OutcomesLike H r r') :
    ActAlike H (dropSite r) (dropSite r') := by
  cases h with
  | ok hv => exact .ok hv
  | error he => exact .fail he

theorem alike_faultText {r r' : Except Fault Value} (h : OutcomesLike H r r') :
    ActAlike H (faultText r) (faultText r') := by
  cases h with
  | ok hv => exact .ok hv
  | error he =>
    simp only [faultText, he.message_eq]
    exact .ok (.simple rfl)

theorem alike_withItems {next next' : List Value → Hook (Except Fault Value)}
    (hvs : List.Forall₂ (Like Eq H) vs vs') (h : ∀ items items',
      List.Forall₂ (Like Eq H) items items' → ActAlike H (next items) (next' items')) :
    ActAlike H (withItems next vs) (withItems next' vs') := by
  have hfirst := like_first hvs
  unfold withItems
  generalize first vs = v, first vs' = v' at hfirst
  have hfail : ActAlike H (.fail (.unexpectedType ["Array"] v))
      (.fail (.unexpectedType ["Array"] v')) := .fail (.unexpectedType hfirst)
  cases hfirst with
  | array _ hitems => exact h _ _ hitems
  | simple hv => cases v <;> first | exact hfail | cases hv
  | object | function => exact hfail

theorem alike_mapItems (vs : List Value) : ∀ {H : Nat → Nat → Prop} {f f' : Value}
    {made made' vs' : List Value} (i : Nat), Like Eq H f f' → List.Forall₂ (Like Eq H) made made' →
      List.Forall₂ (Like Eq H) vs vs' →
      ActAlike H (mapItems f i made vs) (mapItems f' i made' vs') := by
  induction vs with
  | nil =>
    rintro H f f' made made' _ i - hmade ⟨⟩
    exact .array hmade
  | cons v vs ih =>
    rintro H f f' made made' _ i hf hmade (_ | ⟨hv, hvs⟩)
    refine .callOrFault hf (.cons hv (.cons (.simple rfl) .nil)) fun H' hle w w' hw => ?_
    exact ih (i + 1) (hf.mono hle)
      (List.rel_append (Value.itemsLike_mono hle hmade) (.cons hw .nil))
      (Value.itemsLike_mono hle hvs)

theorem alike_filterItems (vs : List Value) : ∀ {H : Nat → Nat → Prop} {f f' : Value}
    {kept kept' vs' : List Value}, Like Eq H f f' → List.Forall₂ (Like Eq H) kept kept' →
      List.Forall₂ (Like Eq H) vs vs' →
      ActAlike H (filterItems f kept vs) (filterItems f' kept' vs') := by
  induction vs with
  | nil =>
    rintro H f f' kept kept' _ - hkept ⟨⟩
    exact .array hkept
  | cons v vs ih =>
    rintro H f f' kept kept' _ hf hkept (_ | ⟨hv, hvs⟩)
    refine .callOrFault hf (.cons hv .nil) fun H' hle w w' hw => ?_
    have hkept' := Value.itemsLike_mono hle hkept
    rw [hw.isTruthy]
    split
    · exact ih (hf.mono hle) (List.rel_append hkept' (.cons (hv.mono hle) .nil))
        (Value.itemsLike_mono hle hvs)
    · exact ih (hf.mono hle) hkept' (Value.itemsLike_mono hle hvs)

theorem alike_reduceItems (vs : List Value) : ∀ {H : Nat → Nat → Prop} {f f' acc acc' : Value}
    {vs' : List Value}, Like Eq H f f' → Like Eq H acc acc' → List.Forall₂ (Like Eq H) vs vs' →
      ActAlike H (reduceItems f acc vs) (reduceItems f' acc' vs') := by
  induction vs with
  | nil =>
    rintro H f f' acc acc' _ - hacc ⟨⟩
    exact .ok hacc
  | cons v vs ih =>
    rintro H f f' acc acc' _ hf hacc (_ | ⟨hv, hvs⟩)
    refine .callOrFault hf (.cons hacc (.cons hv .nil)) fun H' hle w w' hw => ?_
    exact ih (hf.mono hle) hw (Value.itemsLike_mono hle hvs)

/-- Every function of the library is like itself. -/
theorem alike_function {name : String} {f : HostFunction} (h : function? name = some f)
    (H : Nat → Nat → Prop) : HostFunction.Alike H f f := by
  unfold function? at h
  split at h <;> cases h
  -- In the order of the library: first the operators.
  case h_1 | h_2 | h_3 => exact alike_operator (Arithmetic.apply_like fun _ _ _ h => nomatch h)
  case h_4 =>
    refine alike_operator (Arithmetic.apply_like fun m n e h => ?_)
    split at h <;> cases h
    rfl
  case h_5 => exact alike_operator fun ha hb => .ok (ha.concat hb)
  -- Those that look at their arguments only, of which a function shows nothing but its kind.
  case h_6 =>
    refine .of fun _ _ _ vs vs' hvs => ?_
    rw [hvs.length_eq]
    exact ActAlike.ok (.simple rfl)
  case h_7 => exact .of fun _ _ _ _ _ hvs => ActAlike.array hvs
  case h_8 | h_9 => exact .of fun _ _ _ _ _ hvs => ActAlike.ok (like_first hvs)
  case h_10 | h_11 =>
    refine .of fun _ _ _ vs vs' hvs => ?_
    rw [(like_first hvs).text]
    exact ActAlike.fail (.same rfl)
  case h_12 =>
    refine .of fun _ _ _ vs vs' hvs => ?_
    rw [texts_eq (List.forall₂_drop 1 hvs)]
    exact ActAlike.fail (.unexpectedType (like_first hvs))
  case h_13 =>
    refine .of fun _ _ _ vs vs' hvs => ?_
    unfold bigOf
    rw [(like_first hvs).text]
    split
    · exact ActAlike.ok (.simple rfl)
    · exact ActAlike.fail (.same rfl)
  -- Those that call their arguments.
  case h_14 => exact alike_applyThen fun hr => .answer hr
  case h_15 => exact alike_applyThen alike_dropSite
  case h_16 => exact alike_applyThen alike_faultText
  case h_17 =>
    exact .of fun _ _ _ _ _ hvs => alike_withItems hvs fun _ _ hitems =>
      alike_mapItems _ 0 (like_second hvs) .nil hitems
  case h_18 =>
    exact .of fun _ _ _ _ _ hvs => alike_withItems hvs fun _ _ hitems =>
      alike_filterItems _ (like_second hvs) .nil hitems
  case h_19 =>
    exact .of fun _ _ _ _ _ hvs => alike_withItems hvs fun _ _ hitems =>
      alike_reduceItems _ (like_second hvs) (like_third hvs) hitems

end Host

end ExprLang
