import ExprLang.Json.Serializer
import Mathlib.Data.List.Nodup

/-!
What a serializer owes to the values it is told of: what it makes of an array or an object depends
on the documents of its parts only, and is what stands for the document of the whole. The serializer
that builds documents and the one that writes compact texts both do.
-/
namespace ExprLang.Serializer

variable {ε α : Type}

/-- What it makes is the image of a document. Of an object this holds when no name is repeated. -/
structure Represents (s : Serializer ε α) (image : Json → α) : Prop where
  unit : s.unit = .ok (image .null)
  bool (b : Bool) : s.bool b = .ok (image (.bool b))
  double {x : Float} (h : Binary64.isFinite x = true) :
    s.double x = .ok (image (.number (.real x)))
  string (t : String) : s.string t = .ok (image (.string t))
  array (items : List Json) :
    (s.openArray (some items.length) >>= fun state =>
      items.foldlM (fun state j => s.element state (image j)) state >>= s.closeArray) =
        .ok (image (.array items))
  object {members : List (String × Json)} (h : (members.map Prod.fst).Nodup) :
    (s.openObject (some members.length) >>= fun state =>
      members.foldlM (fun state m => s.entry state m.1 (image m.2)) state >>= s.closeObject) =
        .ok (image (.object members))

section Members

theorem putMember_of_notMem {members : List (String × α)} {member : String × α}
    (h : member.1 ∉ members.map Prod.fst) : putMember members member = members ++ [member] := by
  have hnone : ¬ (members.any fun m => m.1 == member.1) = true := by
    intro hany
    obtain ⟨m, hm, hname⟩ := List.any_eq_true.1 hany
    exact h (List.mem_map.2 ⟨m, hm, eq_of_beq hname⟩)
  rw [putMember, if_neg hnone]

theorem foldl_putMember {members before : List (String × α)}
    (h : ((before ++ members).map Prod.fst).Nodup) :
    members.foldl putMember before = before ++ members := by
  induction members generalizing before with
  | nil => rw [List.foldl_nil, List.append_nil]
  | cons member members ih =>
    have hnew : member.1 ∉ before.map Prod.fst := by
      rw [List.map_append, List.map_cons, List.nodup_append'] at h
      exact fun hmem => h.2.2 hmem List.mem_cons_self
    have hsplit : before ++ member :: members = before ++ [member] ++ members := by simp
    rw [hsplit] at h ⊢
    rw [List.foldl_cons, putMember_of_notMem hnew, ih h]

theorem names_putMember (members : List (String × α)) (member : String × α) :
    (putMember members member).map Prod.fst =
      if member.1 ∈ members.map Prod.fst then members.map Prod.fst
      else members.map Prod.fst ++ [member.1] := by
  by_cases h : member.1 ∈ members.map Prod.fst
  · obtain ⟨m, hm, hname⟩ := List.mem_map.1 h
    have hany : (members.any fun m => m.1 == member.1) = true :=
      List.any_eq_true.2 ⟨m, hm, beq_iff_eq.2 hname⟩
    rw [if_pos h, putMember, if_pos hany, List.map_map]
    refine List.map_congr_left fun m' _ => ?_
    rw [Function.comp_apply]
    split
    case isTrue heq => exact (eq_of_beq heq).symm
    case isFalse => rfl
  · rw [if_neg h, putMember_of_notMem h, List.map_append, List.map_singleton]

theorem nodup_foldl_putMember {members before : List (String × α)}
    (h : (before.map Prod.fst).Nodup) : ((members.foldl putMember before).map Prod.fst).Nodup := by
  induction members generalizing before with
  | nil => exact h
  | cons member members ih =>
    refine ih ?_
    rw [names_putMember]
    split
    case isTrue => exact h
    case isFalse hnew => exact List.nodup_append'.2 ⟨h, List.nodup_singleton _, by simpa using hnew⟩

end Members

theorem foldl_append_singleton {items before : List α} :
    items.foldl (fun items item => items ++ [item]) before = before ++ items := by
  induction items generalizing before with
  | nil => rw [List.foldl_nil, List.append_nil]
  | cons item items ih => rw [List.foldl_cons, ih, List.append_assoc, List.singleton_append]

/-- Parts that are taken in without fail are all taken in before the end. -/
theorem foldlM_ok_bind {β γ : Type} (step : β → γ → β) (finish : β → Except ε α) (before : β)
    (parts : List γ) :
    (parts.foldlM (fun state part => Except.ok (step state part)) before >>= finish) =
      finish (parts.foldl step before) := by
  have hall : parts.foldlM (fun state part => Except.ok (step state part)) before =
      (.ok (parts.foldl step before) : Except ε β) := List.foldlM_pure
  rw [hall]
  rfl

theorem document_represents : (document : Serializer ε Json).Represents id where
  unit := rfl
  bool _ := rfl
  double h := congrArg Except.ok (if_pos h)
  string _ := rfl
  array items := by
    refine (foldlM_ok_bind (fun built j => built ++ [j]) (fun built => .ok (Json.array built)) []
      items).trans ?_
    rw [foldl_append_singleton]
    rfl
  object {members} h := by
    refine (foldlM_ok_bind putMember (fun built => .ok (Json.object built)) [] members).trans ?_
    rw [foldl_putMember h]
    rfl

namespace Partial

theorem foldl_add_begun (parts : List (List Char)) (written : List Char) :
    parts.foldl add ⟨written, .begun⟩ =
      ⟨written ++ parts.flatMap (',' :: ·), .begun⟩ := by
  induction parts generalizing written with
  | nil => rw [List.foldl_nil, List.flatMap_nil, List.append_nil]
  | cons part parts ih =>
    have hadd : add ⟨written, .begun⟩ part = ⟨written ++ ',' :: part, .begun⟩ := by simp [add]
    rw [List.foldl_cons, hadd, ih, List.flatMap_cons, List.append_assoc]

theorem intercalate_eq (part : List Char) (parts : List (List Char)) :
    [','].intercalate (part :: parts) = part ++ parts.flatMap (',' :: ·) := by
  induction parts generalizing part with
  | nil => rw [List.intercalate_singleton, List.flatMap_nil, List.append_nil]
  | cons next parts ih =>
    rw [List.intercalate_cons_cons, ih, List.flatMap_cons, List.append_assoc]
    rfl

/-- A container is its parts between its brackets, with commas between them. -/
theorem closing_foldl (first last : Char) (parts : List (List Char)) :
    (parts.foldl add (opening first last (some parts.length))).closing last =
      first :: [','].intercalate parts ++ [last] := by
  cases parts with
  | nil => rfl
  | cons part parts =>
    have hopen : opening first last (some (part :: parts).length) = ⟨[first], .fresh⟩ :=
      if_neg (by simp)
    have hfirst : add ⟨[first], .fresh⟩ part = ⟨first :: part, .begun⟩ := by simp [add]
    rw [hopen, List.foldl_cons, hfirst, foldl_add_begun, intercalate_eq]
    rfl

end Partial

def memberText (member : String × Json) : List Char :=
  Text.quote member.1.toList ++ ':' :: member.2.text

theorem textItems_eq (items : List Json) :
    Json.textItems items = [','].intercalate (items.map Json.text) := by
  induction items with
  | nil => rfl
  | cons j js ih =>
    cases js with
    | nil => exact List.intercalate_singleton.symm
    | cons k ks =>
      rw [List.map_cons, List.map_cons, List.intercalate_cons_cons, ← List.map_cons, ← ih,
        Json.textItems, List.append_assoc]
      · rfl
      · nofun

theorem textMembers_eq (members : List (String × Json)) :
    Json.textMembers members = [','].intercalate (members.map memberText) := by
  induction members with
  | nil => rfl
  | cons m ms ih =>
    cases ms with
    | nil => exact List.intercalate_singleton.symm
    | cons n ns =>
      rw [List.map_cons, List.map_cons, List.intercalate_cons_cons, ← List.map_cons, ← ih,
        Json.textMembers]
      · simp [memberText]
      · nofun

theorem compact_represents : (compact : Serializer ε (List Char)).Represents Json.text where
  unit := rfl
  bool _ := rfl
  double h := congrArg Except.ok (if_pos h)
  string _ := rfl
  array items := by
    have hclosed := Partial.closing_foldl '[' ']' (items.map Json.text)
    rw [List.length_map, ← textItems_eq, List.foldl_map] at hclosed
    exact (foldlM_ok_bind _ (fun p => .ok (Partial.closing ']' p)) _ items).trans
      (congrArg Except.ok hclosed)
  object {members} _ := by
    have hclosed := Partial.closing_foldl '\x7b' '\x7d' (members.map memberText)
    rw [List.length_map, ← textMembers_eq, List.foldl_map] at hclosed
    exact (foldlM_ok_bind _ (fun p => .ok (Partial.closing '\x7d' p)) _ members).trans
      (congrArg Except.ok hclosed)

end ExprLang.Serializer
