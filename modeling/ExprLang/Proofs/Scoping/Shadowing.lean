import ExprLang.Expr.Check
import ExprLang.Proofs.Parsing.Names
import ExprLang.Proofs.Scoping.Probes
import Mathlib.Data.List.Basic

/-!
What a name means at a position. A name is found in a scope exactly when a frame around the position
has it: an initial value of a binding does not find its own name or a later one of the same binding
there, and in a parsed tree a topic finds its value exactly inside a stage of a pipe.
-/
namespace ExprLang

namespace Scope

variable {s t : Scope} {name : String}

theorem lookup?_append : (s ++ t).lookup? name = (s.lookup? name).or (t.lookup? name) :=
  List.findSome?_append

theorem lookup?_eq_none_iff : s.lookup? name = none ↔ ∀ ns ∈ s.map (·.names), name ∉ ns := by
  unfold lookup?
  rw [List.findSome?_eq_none_iff, List.forall_mem_map]
  refine forall₂_congr fun f _ => ?_
  rw [Frame.lookup?, Option.map_eq_none_iff, List.findIdx?_eq_none_iff]
  refine ⟨fun h hmem => by simpa using h name hmem, fun h n hn => ?_⟩
  exact beq_eq_false_iff_ne.2 fun he => h (he ▸ hn)

end Scope

theorem nodup_of_repeatedName? {seen : List String} {ns : List Name}
    (h : repeatedName? seen ns = none) :
    (ns.map (·.text)).Nodup ∧ ∀ n ∈ ns, n.text ∉ seen := by
  induction ns generalizing seen with
  | nil => exact ⟨List.nodup_nil, List.forall_mem_nil _⟩
  | cons n ns ih =>
    rw [repeatedName?] at h
    split at h
    · cases h
    · rename_i hn
      obtain ⟨hnodup, hseen⟩ := ih h
      refine ⟨List.nodup_cons.2 ⟨fun hmem => ?_, hnodup⟩, List.forall_mem_cons.2 ⟨?_, ?_⟩⟩
      · obtain ⟨m, hm, he⟩ := List.mem_map.1 hmem
        exact hseen m hm (he ▸ List.mem_cons_self)
      · exact fun hmem => hn (List.contains_iff_mem.2 hmem)
      · exact fun m hm hmem => hseen m hm (List.mem_cons_of_mem _ hmem)

namespace Expr

section Faults

variable {e c : Expr}

theorem propertiesFault?_eq_none {ps : List (Property Expr)} (h : propertiesFault? ps = none) :
    ∀ p ∈ ps, p.value.fault? = none := by
  induction ps with
  | nil => exact List.forall_mem_nil _
  | cons p ps ih =>
    obtain ⟨hp, hps⟩ := Option.or_eq_none_iff.1 h
    exact List.forall_mem_cons.2 ⟨hp, ih hps⟩

theorem elementsFault?_eq_none {es : List (Option Expr)} (h : elementsFault? es = none) :
    ∀ e, some e ∈ es → e.fault? = none := by
  induction es with
  | nil => exact fun _ he => nomatch he
  | cons o es ih =>
    obtain ⟨ho, hes⟩ := Option.or_eq_none_iff.1 h
    intro e he
    rcases List.mem_cons.1 he with rfl | he
    · exact ho
    · exact ih hes e he

theorem argumentsFault?_eq_none {as : List (Argument Expr)} (h : argumentsFault? as = none) :
    ∀ e, .value e ∈ as → e.fault? = none := by
  induction as with
  | nil => exact fun _ he => nomatch he
  | cons a as ih =>
    intro e he
    cases a with
    | placeholder _ => exact ih h e ((List.mem_cons.1 he).resolve_left nofun)
    | value d =>
      obtain ⟨hd, has⟩ := Option.or_eq_none_iff.1 h
      rcases List.mem_cons.1 he with he | he
      · exact Argument.value.inj he ▸ hd
      · exact ih has e he

theorem stagesFault?_eq_none {ss : List (Stage Expr)} (h : stagesFault? ss = none) :
    ∀ s ∈ ss, s.body.fault? = none := by
  induction ss with
  | nil => exact List.forall_mem_nil _
  | cons s ss ih =>
    obtain ⟨hs, hss⟩ := Option.or_eq_none_iff.1 h
    exact List.forall_mem_cons.2 ⟨hs, ih hss⟩

theorem declarationsFault?_eq_none {ds : List (Declaration Expr)}
    (h : declarationsFault? ds = none) : ∀ d ∈ ds, d.init.fault? = none := by
  induction ds with
  | nil => exact List.forall_mem_nil _
  | cons d ds ih =>
    obtain ⟨hd, hds⟩ := Option.or_eq_none_iff.1 h
    exact List.forall_mem_cons.2 ⟨hd, ih hds⟩

/-- No part of a tree without faults has one. -/
theorem fault?_child (h : e.fault? = none) (hc : c ∈ e.children) : c.fault? = none := by
  cases e with
  | literal | identifier | topic => cases hc
  | unary _ _ argument | lambda _ _ argument => exact List.mem_singleton.1 hc ▸ h
  | binary | logical | coalesce =>
    obtain ⟨hleft, hright⟩ := Option.or_eq_none_iff.1 h
    rcases List.mem_pair.1 hc with rfl | rfl
    · exact hleft
    · exact hright
  | conditional span test consequent alternate =>
    obtain ⟨htest, h⟩ := Option.or_eq_none_iff.1 h
    obtain ⟨hconsequent, halternate⟩ := Option.or_eq_none_iff.1 h
    rcases List.mem_cons.1 hc with rfl | hc
    · exact htest
    rcases List.mem_cons.1 hc with rfl | hc
    · exact hconsequent
    obtain rfl := Option.mem_toList.1 hc
    exact halternate
  | object span ps =>
    obtain ⟨p, hp, rfl⟩ := List.mem_map.1 hc
    exact propertiesFault?_eq_none h p hp
  | array span es => exact elementsFault?_eq_none h c (by simpa [children] using hc)
  | member span target key computed extended =>
    obtain ⟨htarget, hkey⟩ := Option.or_eq_none_iff.1 h
    rcases List.mem_pair.1 hc with rfl | rfl
    · exact htarget
    · cases computed with
      | true => exact hkey
      | false =>
        cases c with
        | identifier => rfl
        | _ => cases hkey
  | call span callee as =>
    obtain ⟨hcallee, has⟩ := Option.or_eq_none_iff.1 h
    rcases List.mem_cons.1 hc with rfl | hc
    · exact hcallee
    · obtain ⟨a, ha, hv⟩ := List.mem_filterMap.1 hc
      cases a with
      | placeholder _ => cases hv
      | value d => exact Option.some.inj hv ▸ argumentsFault?_eq_none has d ha
  | pipe span head ss =>
    obtain ⟨hhead, hss⟩ := Option.or_eq_none_iff.1 h
    rcases List.mem_cons.1 hc with rfl | hc
    · exact hhead
    · obtain ⟨s, hs, rfl⟩ := List.mem_map.1 hc
      exact stagesFault?_eq_none hss s hs
  | letIn span ds body =>
    obtain ⟨-, h⟩ := Option.or_eq_none_iff.1 h
    obtain ⟨hds, hbody⟩ := Option.or_eq_none_iff.1 h
    rcases List.mem_append.1 hc with hc | hc
    · obtain ⟨d, hd, rfl⟩ := List.mem_map.1 hc
      exact declarationsFault?_eq_none hds d hd
    · exact List.mem_singleton.1 hc ▸ hbody

theorem fault?_at {root n : Expr} {path : List Nat} (h : root.fault? = none)
    (hn : root.at? path = some n) : n.fault? = none := by
  induction path generalizing root with
  | nil =>
    cases hn
    exact h
  | cons i path ih =>
    obtain ⟨c, hc, hn⟩ := Option.bind_eq_some_iff.1 hn
    exact ih (fault?_child h (List.mem_of_getElem? hc)) hn

/-- The names of a binding differ from each other. -/
theorem nodup_of_fault? {span : Span} {ds : List (Declaration Expr)} {body : Expr}
    (h : (letIn span ds body).fault? = none) : (ds.map (·.name.text)).Nodup := by
  obtain ⟨h, -⟩ := Option.or_eq_none_iff.1 h
  have hnames := (nodup_of_repeatedName? (Option.map_eq_none_iff.1 h)).1
  rwa [List.map_map] at hnames

end Faults

section Topics

variable {root n e : Expr} {i : Nat} {path : List Nat}

theorem inStage_cons {c : Expr} (hc : e.children[i]? = some c) :
    e.InStage (i :: path) ↔ (∃ span head ss, e = .pipe span head ss ∧ i ≠ 0) ∨ c.InStage path := by
  constructor
  · rintro ⟨_ | ⟨j, outer⟩, k, inner, span, head, ss, hpath, hpipe⟩
    · obtain ⟨rfl, rfl⟩ := List.cons.inj hpath
      exact .inl ⟨span, head, ss, Option.some.inj hpipe, Nat.succ_ne_zero k⟩
    · obtain ⟨rfl, rfl⟩ := List.cons.inj hpath
      rw [List.cons_append, List.append_eq, ← List.cons_append] at hpath
      obtain ⟨d, hd, hpipe⟩ := Option.bind_eq_some_iff.1 hpipe
      obtain rfl := Option.some.inj (hc.symm.trans hd)
      exact .inr ⟨outer, k, inner, span, head, ss, rfl, hpipe⟩
  · rintro (⟨span, head, ss, rfl, hi⟩ | ⟨outer, k, inner, span, head, ss, rfl, hpipe⟩)
    · obtain ⟨k, rfl⟩ := Nat.exists_eq_succ_of_ne_zero hi
      exact ⟨[], k, path, span, head, ss, rfl, rfl⟩
    · refine ⟨i :: outer, k, inner, span, head, ss, rfl, ?_⟩
      rw [at?, hc]
      exact hpipe

theorem topicName_mem_framesAround (h : topicName ∉ e.binders) :
    (∃ ns ∈ e.framesAround i, topicName ∈ ns) ↔ ∃ span head ss, e = .pipe span head ss ∧ i ≠ 0 := by
  cases e with
  | lambda span parameters body =>
    refine ⟨?_, fun ⟨_, _, _, he, _⟩ => nomatch he⟩
    rintro ⟨ns, hns, hmem⟩
    rw [framesAround] at hns
    split at hns
    · cases hns
    · obtain rfl := List.mem_singleton.1 hns
      exact absurd hmem h
  | letIn span ds body =>
    refine ⟨?_, fun ⟨_, _, _, he, _⟩ => nomatch he⟩
    rintro ⟨ns, hns, hmem⟩
    obtain ⟨d, hd, rfl⟩ := List.mem_map.1 (List.mem_reverse.1 hns)
    refine absurd (List.mem_map.2 ⟨d, List.mem_of_mem_take hd, ?_⟩) h
    exact (List.mem_singleton.1 hmem).symm
  | pipe span head ss =>
    rw [framesAround]
    by_cases hi : i = 0
    · rw [if_pos hi]
      exact ⟨fun ⟨_, hns, _⟩ => (nomatch hns), fun ⟨_, _, _, _, hne⟩ => absurd hi hne⟩
    · rw [if_neg hi]
      exact ⟨fun _ => ⟨span, head, ss, rfl, hi⟩, fun _ =>
        ⟨_, List.mem_singleton_self _, List.mem_singleton_self _⟩⟩
  | _ => exact ⟨fun ⟨_, hns, _⟩ => (nomatch hns), fun ⟨_, _, _, he, _⟩ => nomatch he⟩

theorem topicName_mem_framesAt (h : root.BindsNoTopic) (hn : root.at? path = some n) :
    (∃ ns ∈ root.framesAt path, topicName ∈ ns) ↔ root.InStage path := by
  induction path generalizing root with
  | nil =>
    refine ⟨fun ⟨_, hns, _⟩ => (nomatch hns), fun ⟨outer, _, _, _, _, _, hpath, _⟩ => ?_⟩
    exact absurd (congrArg List.length hpath) (by simp)
  | cons i path ih =>
    obtain ⟨c, hc, hn⟩ := Option.bind_eq_some_iff.1 hn
    have hchild : c.BindsNoTopic := fun m ⟨inner, hm⟩ =>
      h m ⟨i :: inner, by rw [at?, hc]; exact hm⟩
    rw [inStage_cons hc, ← ih hchild hn, ← topicName_mem_framesAround (h root root.hasNode_root),
      framesAt, hc, Option.elim_some, or_comm]
    simp only [List.mem_append, or_and_right, exists_or]

end Topics

end Expr

end ExprLang
