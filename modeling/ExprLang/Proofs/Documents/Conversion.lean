import ExprLang.Value.Json
import ExprLang.Proofs.Correspondence.Values
import ExprLang.Proofs.Documents.Serializers
import Mathlib.Order.BooleanAlgebra.Defs

/-!
Values and their documents. A serializer makes of a value what stands for its document. A document
made into a value again is the value it was made from, as far as JSON can carry that, and a document
whose numbers are finite doubles is got back from the value made of it.
-/
namespace ExprLang

namespace Value

section Distinct

mutual

/-- No object in it repeats a key. -/
def KeysDistinct : Value → Prop
  | array _ items => ItemsDistinct items
  | object _ entries => (entries.map Prod.fst).Nodup ∧ EntriesDistinct entries
  | _ => True

def ItemsDistinct : List Value → Prop
  | [] => True
  | v :: vs => v.KeysDistinct ∧ ItemsDistinct vs

def EntriesDistinct : List (String × Value) → Prop
  | [] => True
  | (_, v) :: es => v.KeysDistinct ∧ EntriesDistinct es

end

theorem mergeEntries_of_nodup {es : List (String × Value)} (h : (es.map Prod.fst).Nodup) :
    mergeEntries es = es := by
  have hmerged : es.foldl Serializer.putMember [] = [] ++ es := Serializer.foldl_putMember h
  exact hmerged

theorem nodup_mergeEntries (es : List (String × Value)) :
    ((mergeEntries es).map Prod.fst).Nodup := by
  have hnil : (([] : List (String × Value)).map Prod.fst).Nodup := List.nodup_nil
  exact Serializer.nodup_foldl_putMember hnil

theorem entriesDistinct_iff {es : List (String × Value)} :
    EntriesDistinct es ↔ ∀ e ∈ es, e.2.KeysDistinct := by
  induction es with
  | nil => simp [EntriesDistinct]
  | cons e es ih => simp [EntriesDistinct, ih]

mutual

/-- However often a document repeats a name, the objects made from it repeat no key. -/
theorem keysDistinct_ofJson : ∀ (j : Json) (n : Nat), ((ofJson j).run n).1.KeysDistinct
  | .null, _ | .unreadable, _ | .bool _, _ | .number _, _ | .string _, _ => trivial
  | .array items, n => itemsDistinct_ofItems items n
  | .object members, n => by
    have hmembers := entriesDistinct_iff.1 (entriesDistinct_ofMembers members n)
    have hmerged : EntriesDistinct (mergeEntries ((ofMembers members).run n).1) :=
      entriesDistinct_iff.2 fun e he => hmembers e (mem_of_mem_mergeEntries he)
    exact ⟨nodup_mergeEntries _, hmerged⟩

theorem itemsDistinct_ofItems : ∀ (js : List Json) (n : Nat), ItemsDistinct ((ofItems js).run n).1
  | [], _ => trivial
  | j :: js, n => ⟨keysDistinct_ofJson j n, itemsDistinct_ofItems js _⟩

theorem entriesDistinct_ofMembers : ∀ (ms : List (String × Json)) (n : Nat),
    EntriesDistinct ((ofMembers ms).run n).1
  | [], _ => trivial
  | (_, j) :: ms, n => ⟨keysDistinct_ofJson j n, entriesDistinct_ofMembers ms _⟩

end

end Distinct

section Serialize

variable {ε α : Type} {out : Serializer ε α} {image : Json → α}

theorem entriesJson_names (es : List (String × Value)) :
    (entriesJson es).map Prod.fst = es.map Prod.fst := by
  induction es with
  | nil => rfl
  | cons e es ih => rw [entriesJson, List.map_cons, List.map_cons, ih]

theorem length_itemsJson (vs : List Value) : (itemsJson vs).length = vs.length := by
  induction vs with
  | nil => rfl
  | cons v vs ih => rw [itemsJson, List.length_cons, List.length_cons, ih]

theorem length_entriesJson (es : List (String × Value)) :
    (entriesJson es).length = es.length := by
  rw [← List.length_map Prod.fst, entriesJson_names, List.length_map]

mutual

/-- A serializer makes of a value what stands for its document. -/
theorem serialize_eq (hout : out.Represents image) : ∀ v : Value, v.KeysDistinct →
    v.serialize out = .ok (image v.toJson)
  | undefined, _ | null, _ | function _, _ => hout.unit
  | bool b, _ => hout.bool b
  | number x, _ => by
    rw [serialize, toJson]
    split
    case isTrue hx => exact hout.double hx
    case isFalse => exact hout.unit
  | bigint n, _ => hout.string (toString n)
  | string s, _ => hout.string s
  | array _ items, h => by
    have harray := hout.array (itemsJson items)
    rw [length_itemsJson] at harray
    rw [serialize, toJson, ← harray]
    refine bind_congr fun state => ?_
    rw [serializeItems_eq hout items h]
  | object _ entries, h => by
    have hnames : ((entriesJson entries).map Prod.fst).Nodup :=
      (entriesJson_names entries).symm ▸ h.1
    have hobject := hout.object hnames
    rw [length_entriesJson] at hobject
    rw [serialize, toJson, ← hobject]
    refine bind_congr fun state => ?_
    rw [serializeEntries_eq hout entries h.2]

theorem serializeItems_eq (hout : out.Represents image) : ∀ vs : List Value, ItemsDistinct vs →
    ∀ state, serializeItems out state vs =
      (itemsJson vs).foldlM (fun state j => out.element state (image j)) state
  | [], _, _ => rfl
  | v :: vs, h, state => by
    rw [serializeItems, serialize_eq hout v h.1, itemsJson, List.foldlM_cons]
    exact bind_congr fun state => serializeItems_eq hout vs h.2 state

theorem serializeEntries_eq (hout : out.Represents image) :
    ∀ es : List (String × Value), EntriesDistinct es → ∀ state, serializeEntries out state es =
      (entriesJson es).foldlM (fun state m => out.entry state m.1 (image m.2)) state
  | [], _, _ => rfl
  | (k, v) :: es, h, state => by
    rw [serializeEntries, serialize_eq hout v h.1, entriesJson, List.foldlM_cons]
    exact bind_congr fun state => serializeEntries_eq hout es h.2 state

end

end Serialize

section Carried

mutual

/-- What is left of a value in JSON. -/
def carried : Value → Value
  | undefined | function _ => null
  | number x => if Binary64.isFinite x then number x else null
  | bigint n => string (toString n)
  | array r items => array r (carriedItems items)
  | object r entries => object r (carriedEntries entries)
  | v => v

def carriedItems : List Value → List Value
  | [] => []
  | v :: vs => v.carried :: carriedItems vs

def carriedEntries : List (String × Value) → List (String × Value)
  | [] => []
  | (k, v) :: es => (k, v.carried) :: carriedEntries es

end

theorem ofMembers_names (ms : List (String × Json)) (n : Nat) :
    ((ofMembers ms).run n).1.map Prod.fst = ms.map Prod.fst := by
  induction ms generalizing n with
  | nil => rfl
  | cons m ms ih => exact congrArg (m.1 :: ·) (ih _)

mutual

/-- What the document of a value is made into is the value, as far as JSON carries it, with
references of its own. -/
theorem like_ofJson_toJson : ∀ v : Value, v.KeysDistinct → ∀ n,
    Like ⊤ ⊥ v.carried ((ofJson v.toJson).run n).1
  | undefined, _, _ | null, _, _ | bool _, _, _ | bigint _, _, _ | string _, _, _
  | function _, _, _ => .simple rfl
  | number x, _, n => by
    rw [carried, toJson]
    split <;> exact .simple rfl
  | array _ items, h, n => .array trivial (itemsLike_ofItems items h n)
  | object _ entries, h, n => by
    have hentries := entriesLike_ofMembers entries h.2 n
    have hmerged : mergeEntries ((ofMembers (entriesJson entries)).run n).1 =
        ((ofMembers (entriesJson entries)).run n).1 := by
      refine mergeEntries_of_nodup ?_
      rw [ofMembers_names, entriesJson_names]
      exact h.1
    rw [← hmerged] at hentries
    exact .object trivial hentries

theorem itemsLike_ofItems : ∀ vs : List Value, ItemsDistinct vs → ∀ n,
    List.Forall₂ (Like ⊤ ⊥) (carriedItems vs) ((ofItems (itemsJson vs)).run n).1
  | [], _, _ => .nil
  | v :: vs, h, n => .cons (like_ofJson_toJson v h.1 n) (itemsLike_ofItems vs h.2 _)

theorem entriesLike_ofMembers : ∀ es : List (String × Value), EntriesDistinct es → ∀ n,
    List.Forall₂ (EntryLike ⊤ ⊥) (carriedEntries es) ((ofMembers (entriesJson es)).run n).1
  | [], _, _ => .nil
  | (_, v) :: es, h, n => .cons (.mk (like_ofJson_toJson v h.1 n)) (entriesLike_ofMembers es h.2 _)

end

end Carried

end Value

namespace Json

mutual

/-- Every number is a finite double, and no object repeats a name. -/
def HoldsDoubles : Json → Prop
  | number (.integer _) | unreadable => False
  | number (.real x) => Binary64.isFinite x = true
  | array items => ItemsHoldDoubles items
  | object members => (members.map Prod.fst).Nodup ∧ MembersHoldDoubles members
  | _ => True

def ItemsHoldDoubles : List Json → Prop
  | [] => True
  | j :: js => j.HoldsDoubles ∧ ItemsHoldDoubles js

def MembersHoldDoubles : List (String × Json) → Prop
  | [] => True
  | (_, j) :: ms => j.HoldsDoubles ∧ MembersHoldDoubles ms

end

end Json

namespace Value

open Json (HoldsDoubles ItemsHoldDoubles MembersHoldDoubles)

mutual

theorem holdsDoubles_toJson : ∀ v : Value, v.KeysDistinct → v.toJson.HoldsDoubles
  | undefined, _ | null, _ | bool _, _ | bigint _, _ | string _, _ | function _, _ => trivial
  | number x, _ => by
    rw [toJson]
    split
    case isTrue hx => exact hx
    case isFalse => trivial
  | array _ items, h => itemsHoldDoubles items h
  | object _ entries, h => ⟨(entriesJson_names entries).symm ▸ h.1, membersHoldDoubles entries h.2⟩

theorem itemsHoldDoubles : ∀ vs : List Value, ItemsDistinct vs → ItemsHoldDoubles (itemsJson vs)
  | [], _ => trivial
  | v :: vs, h => ⟨holdsDoubles_toJson v h.1, itemsHoldDoubles vs h.2⟩

theorem membersHoldDoubles : ∀ es : List (String × Value), EntriesDistinct es →
    MembersHoldDoubles (entriesJson es)
  | [], _ => trivial
  | (_, v) :: es, h => ⟨holdsDoubles_toJson v h.1, membersHoldDoubles es h.2⟩

end

mutual

/-- A document of finite doubles is got back from the value made of it. -/
theorem toJson_ofJson : ∀ j : Json, j.HoldsDoubles → ∀ n, ((ofJson j).run n).1.toJson = j
  | .null, _, _ | .bool _, _, _ | .string _, _, _ => rfl
  | .number (.real _), h, _ => if_pos h
  | .array items, h, n => congrArg Json.array (itemsJson_ofItems items h n)
  | .object members, h, n => by
    have hmerged : mergeEntries ((ofMembers members).run n).1 = ((ofMembers members).run n).1 :=
      mergeEntries_of_nodup ((ofMembers_names members n).symm ▸ h.1)
    calc ((ofJson (.object members)).run n).1.toJson
        = .object (entriesJson (mergeEntries ((ofMembers members).run n).1)) := rfl
      _ = .object (entriesJson ((ofMembers members).run n).1) := by rw [hmerged]
      _ = .object members := congrArg Json.object (entriesJson_ofMembers members h.2 n)

theorem itemsJson_ofItems : ∀ js : List Json, ItemsHoldDoubles js → ∀ n,
    itemsJson ((ofItems js).run n).1 = js
  | [], _, _ => rfl
  | j :: js, h, n => congrArg₂ List.cons (toJson_ofJson j h.1 n) (itemsJson_ofItems js h.2 _)

theorem entriesJson_ofMembers : ∀ ms : List (String × Json), MembersHoldDoubles ms → ∀ n,
    entriesJson ((ofMembers ms).run n).1 = ms
  | [], _, _ => rfl
  | (k, j) :: ms, h, n =>
    congrArg₂ (fun j ms => (k, j) :: ms) (toJson_ofJson j h.1 n) (entriesJson_ofMembers ms h.2 _)

end

end Value

/-- The two ways from a value to its document agree, the way back gives the value as far as JSON
carries it, and documents of finite doubles go to values and back unchanged. -/
theorem conversion_agrees {v : Value} (hv : v.KeysDistinct) {ε α : Type} {out : Serializer ε α}
    {image : Json → α} (hout : out.Represents image) :
    v.serialize out = .ok (image v.toJson) ∧
      (∀ n, Value.Like ⊤ ⊥ v.carried ((Value.ofJson v.toJson).run n).1) ∧
      ∀ j : Json, j.HoldsDoubles → ∀ n, ((Value.ofJson j).run n).1.toJson = j :=
  ⟨Value.serialize_eq hout v hv, Value.like_ofJson_toJson v hv, Value.toJson_ofJson⟩

theorem conversion_agrees_nested :
    let v := Value.object 0 [("big", .bigint 7), ("list", .array 1 [.undefined, .string "x"])]
    let kept := Value.object 0 [("big", .string "7"), ("list", .array 1 [.null, .string "x"])]
    v.serialize (.compact : Serializer Empty (List Char)) =
        .ok "\x7b\"big\":\"7\",\"list\":[null,\"x\"]\x7d".toList ∧
      Value.Like ⊤ ⊥ kept ((Value.ofJson v.toJson).run 2).1 ∧
      ((Value.ofJson v.toJson).run 2).1.toJson = v.toJson := by
  intro v kept
  have hv : v.KeysDistinct := ⟨by decide, trivial, ⟨trivial, trivial, trivial⟩, trivial⟩
  have h := conversion_agrees hv (Serializer.compact_represents (ε := Empty))
  have hdoubles : v.toJson.HoldsDoubles := Value.holdsDoubles_toJson v hv
  exact ⟨h.1.trans (by decide), h.2.1 2, h.2.2 _ hdoubles 2⟩

end ExprLang
