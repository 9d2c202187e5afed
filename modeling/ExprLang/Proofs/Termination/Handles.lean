import ExprLang.Machine
import ExprLang.Policy.Standard

/-!
The functions that a value holds. The standard policy makes none: what it gives for an operator
holds no function, and a property holds only functions of the object it was read from.
-/
namespace ExprLang

namespace Value

mutual

def handles : Value → List Nat
  | .array _ items => itemHandles items
  | .object _ entries => entryHandles entries
  | .function h => [h]
  | _ => []

def itemHandles : List Value → List Nat
  | [] => []
  | v :: vs => v.handles ++ itemHandles vs

def entryHandles : List (String × Value) → List Nat
  | [] => []
  | (_, v) :: es => v.handles ++ entryHandles es

end

theorem itemHandles_eq (vs : List Value) : itemHandles vs = vs.flatMap handles := by
  induction vs with
  | nil => rfl
  | cons v vs ih => rw [itemHandles, ih, List.flatMap_cons]

theorem entryHandles_eq (es : List (String × Value)) :
    entryHandles es = es.flatMap fun e => e.2.handles := by
  induction es with
  | nil => rfl
  | cons e es ih => rw [entryHandles, ih, List.flatMap_cons]

theorem mem_itemHandles {h : Nat} {vs : List Value} :
    h ∈ itemHandles vs ↔ ∃ v ∈ vs, h ∈ v.handles := by
  rw [itemHandles_eq, List.mem_flatMap]

theorem mem_entryHandles {h : Nat} {es : List (String × Value)} :
    h ∈ entryHandles es ↔ ∃ e ∈ es, h ∈ e.2.handles := by
  rw [entryHandles_eq, List.mem_flatMap]

theorem mem_of_mem_putEntry {es : List (String × Value)} {e d : String × Value}
    (h : d ∈ putEntry es e) : d ∈ e :: es := by
  unfold putEntry at h
  split at h
  · obtain ⟨c, hc, rfl⟩ := List.mem_map.1 h
    split
    · exact List.mem_cons_self
    · exact List.mem_cons_of_mem _ hc
  · rcases List.mem_append.1 h with h | h
    · exact List.mem_cons_of_mem _ h
    · exact List.mem_singleton.1 h ▸ List.mem_cons_self

theorem mem_of_mem_mergeEntries {es : List (String × Value)} {d : String × Value}
    (h : d ∈ mergeEntries es) : d ∈ es := by
  suffices ∀ (es acc : List (String × Value)), d ∈ es.foldl putEntry acc → d ∈ acc ∨ d ∈ es by
    rcases this es [] h with h | h
    · cases h
    · exact h
  intro es
  induction es with
  | nil => exact fun _ h => .inl h
  | cons e es ih =>
    intro acc h
    rcases ih _ h with h | h
    · rcases List.mem_cons.1 (mem_of_mem_putEntry h) with rfl | h
      · exact .inr List.mem_cons_self
      · exact .inl h
    · exact .inr (List.mem_cons_of_mem _ h)

theorem handles_ofEntries {h r : Nat} {es : List (String × Value)}
    (hh : h ∈ (ofEntries r es).handles) : ∃ e ∈ es, h ∈ e.2.handles := by
  obtain ⟨e, he, hh⟩ := mem_entryHandles.1 (show h ∈ entryHandles (mergeEntries es) from hh)
  exact ⟨e, mem_of_mem_mergeEntries he, hh⟩

theorem handles_ownProperty? {v u : Value} {key : String} {h : Nat}
    (hu : v.ownProperty? key = some u) (hh : h ∈ u.handles) : h ∈ v.handles := by
  cases v with
  | object r entries =>
    obtain ⟨before, after, rfl, -⟩ := List.lookup_eq_some_iff.1 hu
    exact mem_entryHandles.2 ⟨(key, u), by simp, hh⟩
  | array r items =>
    unfold ownProperty? at hu
    simp only at hu
    split at hu
    · cases hu
      cases hh
    · obtain ⟨i, -, hi⟩ := Option.bind_eq_some_iff.1 hu
      exact mem_itemHandles.2 ⟨u, List.mem_of_getElem? hi, hh⟩
  | _ => cases hu

theorem handles_property {t k v : Value} (hv : t.property k = .ok v) {h : Nat}
    (hh : h ∈ v.handles) : h ∈ t.handles := by
  unfold property at hv
  split at hv
  · exact (Except.ok.inj hv).symm ▸ hh
  split at hv
  · cases hv
  split at hv
  · cases hv
  · cases hv
    rename_i key _
    cases hu : t.ownProperty? key with
    | none =>
      rw [hu] at hh
      cases hh
    | some u =>
      rw [hu] at hh
      exact handles_ownProperty? hu hh

end Value

theorem Eval.itemHandles_fill {h : Nat} {slots : List (Option Value)} {vs : List Value}
    (hh : h ∈ Value.itemHandles (fill slots vs)) :
    (∃ v, some v ∈ slots ∧ h ∈ v.handles) ∨ h ∈ Value.itemHandles vs := by
  induction slots generalizing vs with
  | nil => cases hh
  | cons slot slots ih =>
    have hrest : ∀ us, h ∈ Value.itemHandles (fill slots us) →
        (∃ v, some v ∈ slot :: slots ∧ h ∈ v.handles) ∨ h ∈ Value.itemHandles us := by
      intro us hus
      rcases ih hus with ⟨v, hv, hh⟩ | hh
      · exact .inl ⟨v, List.mem_cons_of_mem _ hv, hh⟩
      · exact .inr hh
    rcases slot with _ | v
    · cases vs with
      | nil => exact hrest [] hh
      | cons u us =>
        rcases List.mem_append.1 hh with hh | hh
        · exact .inr (List.mem_append_left _ hh)
        · exact (hrest us hh).imp_right (List.mem_append_right _)
    · rcases List.mem_append.1 hh with hh | hh
      · exact .inl ⟨v, List.mem_cons_self, hh⟩
      · exact hrest vs hh

namespace Env

/-- The handles of the functions that the names of an environment can stand for. -/
def handles (env : Env) : List Nat := env.scope.flatMap fun f => Value.itemHandles f.values

theorem handles_push (env : Env) (f : Frame) :
    (env.push f).handles = Value.itemHandles f.values ++ env.handles :=
  List.flatMap_cons

theorem handles_lookup? {env : Env} {name : String} {v : Value}
    (hv : env.scope.lookup? name = some v) {h : Nat} (hh : h ∈ v.handles) : h ∈ env.handles := by
  obtain ⟨f, hf, hfv⟩ := List.exists_of_findSome?_eq_some hv
  obtain ⟨i, -, hi⟩ := Option.map_eq_some_iff.1 hfv
  refine List.mem_flatMap.2 ⟨f, hf, Value.mem_itemHandles.2 ?_⟩
  cases hvalue : f.values[i]? with
  | none =>
    rw [hvalue] at hi
    subst hi
    cases hh
  | some u =>
    rw [hvalue] at hi
    subst hi
    exact ⟨u, List.mem_of_getElem? hvalue, hh⟩

theorem handles_topic {env : Env} {v : Value} (hv : env.topic = .ok v) {h : Nat}
    (hh : h ∈ v.handles) : h ∈ env.handles := by
  unfold topic at hv
  split at hv
  · cases hv
    exact handles_lookup? ‹_› hh
  · cases hv

theorem handles_bind {env : Env} {names : List String} {vs : List Value} {h : Nat}
    (hh : h ∈ (env.bind names vs).handles) : h ∈ Value.itemHandles vs ∨ h ∈ env.handles := by
  unfold bind at hh
  split at hh
  · exact .inr hh
  · rw [handles_push] at hh
    refine (List.mem_append.1 hh).imp_left fun hh => ?_
    obtain ⟨v, hv, hh⟩ := Value.mem_itemHandles.1 hh
    exact Value.mem_itemHandles.2 ⟨v, List.mem_of_mem_take hv, hh⟩

end Env

namespace Policy.Standard

theorem handles_unary {op : UnaryOp} {v u : Value} (h : unary op v = .ok u) : u.handles = [] := by
  cases op with
  | plus =>
    change (Numeric.ofValue v).map Numeric.toValue = _ at h
    rcases hn : Numeric.ofValue v with e | x <;> rw [hn] at h <;> cases h
    cases x <;> rfl
  | minus =>
    change Arithmetic.negate v = _ at h
    unfold Arithmetic.negate at h
    rcases hn : Numeric.ofValue v with e | x <;> rw [hn] at h
    · cases h
    · cases x <;> cases h <;> rfl
  | not => cases h; rfl
  | typeof => cases h; rfl

theorem handles_apply {float : Float → Float → Float} {big : Int → Int → Except EvalError Int}
    {a b v : Value} (h : Arithmetic.apply float big a b = .ok v) : v.handles = [] := by
  unfold Arithmetic.apply at h
  rcases ha : Numeric.ofValue a with e | x <;> rw [ha] at h
  · cases h
  rcases hb : Numeric.ofValue b with e | y <;> rw [hb] at h
  · cases h
  rcases x with x | m <;> rcases y with y | n
  · cases h; rfl
  · cases h
  · cases h
  · change (big m n >>= _) = _ at h
    rcases hbig : big m n with e | k <;> rw [hbig] at h <;> cases h
    rfl

theorem handles_relation {test : Ordering → Bool} {a b v : Value} (h : relation test a b = .ok v) :
    v.handles = [] := by
  unfold relation at h
  rcases ho : a.order? b with e | o <;> rw [ho] at h <;> cases h
  rfl

theorem handles_binary {op : BinaryOp} {a b v : Value} (h : binary op a b = .ok v) :
    v.handles = [] := by
  cases op with
  | add | sub | mul | div | mod | pow => exact handles_apply h
  | concat | eq | notEq => cases h; rfl
  | less | lessEq | greater | greaterEq => exact handles_relation h
  | in_ =>
    change Value.hasKey a b = _ at h
    unfold Value.hasKey at h
    split at h
    · split at h <;> cases h
      rfl
    · cases h

/-- Only the globals and the data give functions to names that no frame binds. -/
theorem mem_handles_resolve {name : String} {globals data : Option Value} {v : Value}
    (h : resolve name globals data = .ok v) {i : Nat} (hi : i ∈ v.handles) :
    (∃ u ∈ globals, i ∈ u.handles) ∨ ∃ u ∈ data, i ∈ u.handles := by
  unfold resolve at h
  split at h
  · cases h
  split at h
  · cases h
    cases hi
  split at h
  · cases h
    rename_i hu
    rcases Option.or_eq_some_iff.1 hu with hu | ⟨-, hu⟩
    · obtain ⟨t, ht, hu⟩ := Option.bind_eq_some_iff.1 hu
      exact .inl ⟨t, ht, Value.handles_ownProperty? hu hi⟩
    · obtain ⟨t, ht, hu⟩ := Option.bind_eq_some_iff.1 hu
      exact .inr ⟨t, ht, Value.handles_ownProperty? hu hi⟩
  · cases h

theorem handles_resolve {name : String} {globals data : Option Value} {v : Value}
    (hg : ∀ u ∈ globals, u.handles = []) (hd : ∀ u ∈ data, u.handles = [])
    (h : resolve name globals data = .ok v) : v.handles = [] := by
  refine List.eq_nil_iff_forall_not_mem.2 fun i hi => ?_
  rcases mem_handles_resolve h hi with ⟨u, hu, hi⟩ | ⟨u, hu, hi⟩
  · exact List.not_mem_nil (hg u hu ▸ hi)
  · exact List.not_mem_nil (hd u hu ▸ hi)

end Policy.Standard

end ExprLang
