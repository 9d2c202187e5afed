import ExprLang.Expression
import ExprLang.Proofs.EntryPoints
import ExprLang.Proofs.Positions
import ExprLang.Proofs.Scoping.Shadowing
import ExprLang.Proofs.Shapes

/-!
Trees that are refused. A tree that is not too high, and whose accesses have names where they must,
is refused exactly if some binding in it, at any position, gives a name twice; the error is that of
the first such binding in the order of the text.
-/
namespace ExprLang

/-- The name that is found is the first one that occurred before. -/
theorem exists_of_repeatedName? {seen : List String} {ns : List Name} {n : Name}
    (h : repeatedName? seen ns = some n) :
    ∃ before after, ns = before ++ n :: after ∧
      (n.text ∈ seen ∨ n.text ∈ before.map (·.text)) ∧ (before.map (·.text)).Nodup ∧
      ∀ m ∈ before, m.text ∉ seen := by
  induction ns generalizing seen with
  | nil => cases h
  | cons m ns ih =>
    rw [repeatedName?] at h
    split at h
    · rename_i hm
      obtain rfl := Option.some.inj h
      exact ⟨[], ns, rfl, .inl (List.contains_iff_mem.1 hm), List.nodup_nil,
        List.forall_mem_nil _⟩
    · rename_i hm
      obtain ⟨before, after, rfl, hn, hnodup, hseen⟩ := ih h
      refine ⟨m :: before, after, rfl, ?_, List.nodup_cons.2 ⟨fun hmem => ?_, hnodup⟩, ?_⟩
      · rw [List.mem_cons, or_assoc] at hn
        rw [List.map_cons, List.mem_cons]
        exact or_left_comm.1 hn
      · obtain ⟨k, hk, htext⟩ := List.mem_map.1 hmem
        exact hseen k hk (htext ▸ List.mem_cons_self)
      · refine List.forall_mem_cons.2 ⟨fun hmem => hm (List.contains_iff_mem.2 hmem), ?_⟩
        exact fun k hk hmem => hseen k hk (List.mem_cons_of_mem _ hmem)

namespace Expr

variable {e c n : Expr} {f : TreeFault} {ds : List (Declaration Expr)}

theorem exists_of_declarationFault? (h : declarationFault? ds = some f) :
    ∃ before d after, ds = before ++ d :: after ∧ d.name.text ∈ before.map (·.name.text) ∧
      (before.map (·.name.text)).Nodup ∧ f = .found ⟨.repeatedName d.name.text, d.name.span⟩ := by
  obtain ⟨n, hn, rfl⟩ := Option.map_eq_some_iff.1 h
  obtain ⟨names, more, hnames, hmem, hnodup, -⟩ := exists_of_repeatedName? hn
  obtain ⟨before, rest, rfl, rfl, hrest⟩ := List.map_eq_append_iff.1 hnames
  obtain ⟨d, after, rfl, rfl, -⟩ := List.map_eq_cons_iff.1 hrest
  rw [List.map_map] at hmem hnodup
  exact ⟨before, d, after, rfl, hmem.resolve_left List.not_mem_nil, hnodup, rfl⟩

theorem declarationFault?_eq_none_iff :
    declarationFault? ds = none ↔ (ds.map (·.name.text)).Nodup := by
  constructor
  · intro h
    have hnames := (nodup_of_repeatedName? (Option.map_eq_none_iff.1 h)).1
    rwa [List.map_map] at hnames
  · intro h
    by_contra hfault
    obtain ⟨f, hf⟩ := Option.ne_none_iff_exists'.1 hfault
    obtain ⟨before, d, after, rfl, hmem, -⟩ := exists_of_declarationFault? hf
    rw [List.map_append, List.map_cons] at h
    exact (List.nodup_append.1 h).2.2 _ hmem _ List.mem_cons_self rfl

/-- The property of every access that is not computed is an identifier. -/
def Named (e : Expr) : Prop :=
  ∀ span target key extended, e.HasNode (.member span target key false extended) → key.isIdentifier

/-- A binding at this position gives a name twice. -/
def RepeatsAt (e : Expr) (path : List Nat) : Prop :=
  ∃ span ds body, e.at? path = some (.letIn span ds body) ∧ ¬ (ds.map (·.name.text)).Nodup

theorem Named.child (h : e.Named) (hc : c ∈ e.children) : c.Named :=
  fun _ _ _ _ hn => h _ _ _ _ (.of_child hc hn)

theorem named_of_children
    (hroot : ∀ span target key extended, e = .member span target key false extended →
      key.isIdentifier)
    (hchildren : ∀ c ∈ e.children, c.Named) : e.Named := fun span target key extended hn =>
  forall_hasNode (P := fun n => n = .member span target key false extended → key.isIdentifier)
    (hroot span target key extended)
    (fun c hc _ hn he => hchildren c hc span target key extended (he ▸ hn)) _ hn rfl

theorem fault?_of_isIdentifier (h : e.isIdentifier) : e.fault? = none := by
  cases e with
  | identifier => rfl
  | _ => cases h

/-- The first fault of a tree is its root's own or the first one of its children. -/
theorem fault?_eq (h : e.Named) : e.fault? = e.ownFault?.or (e.children.findSome? fault?) := by
  cases e with
  | literal | identifier | topic => rfl
  | unary _ _ argument | lambda _ _ argument =>
    rw [children, findFault?_cons, List.findSome?_nil, Option.or_none]
    rfl
  | binary _ _ left right | logical _ _ left right | coalesce _ left right =>
    rw [children, findFault?_cons, findFault?_cons, List.findSome?_nil, Option.or_none]
    rfl
  | conditional _ test consequent alternate =>
    rw [children, findFault?_cons, findFault?_cons]
    cases alternate with
    | none => rfl
    | some e =>
      rw [Option.toList_some, findFault?_cons, List.findSome?_nil, Option.or_none]
      rfl
  | object _ ps => exact propertiesFault?_eq ps
  | array _ es => exact elementsFault?_eq es
  | member span target key computed extended =>
    rw [children, findFault?_cons, findFault?_cons, List.findSome?_nil, Option.or_none, fault?]
    cases computed with
    | true => rfl
    | false =>
      have hkey := h _ _ _ _ (hasNode_root _)
      rw [fault?_of_isIdentifier hkey, ownFault?]
      simp only [hkey, if_true, Bool.false_eq_true, if_false, Option.or_none, Option.none_or]
  | call _ callee as =>
    rw [children, findFault?_cons, ← argumentsFault?_eq]
    rfl
  | pipe _ head ss =>
    rw [children, findFault?_cons, ← stagesFault?_eq]
    rfl
  | letIn _ ds body =>
    rw [children, List.findSome?_append, ← declarationsFault?_eq, findFault?_cons,
      List.findSome?_nil, Option.or_none]
    rfl

theorem ownFault?_of_at? (h : e.fault? = none) {path : List Nat} (hn : e.at? path = some n)
    (hnamed : n.Named) : n.ownFault? = none := by
  have hfault := fault?_at h hn
  rw [fault?_eq hnamed] at hfault
  exact (Option.or_eq_none_iff.1 hfault).1

theorem Named.at (h : e.Named) {path : List Nat} (hn : e.at? path = some n) : n.Named := by
  induction path generalizing e with
  | nil => exact Option.some.inj hn ▸ h
  | cons i path ih =>
    obtain ⟨c, hc, hn⟩ := Option.bind_eq_some_iff.1 hn
    exact ih (h.child (List.mem_of_getElem? hc)) hn

/-- The fault that is found is that of the first node with one, where positions are compared number
by number and a node comes before those below it. -/
theorem exists_first_fault {e : Expr} (hnamed : e.Named) (h : e.fault? = some f) :
    ∃ path n, e.at? path = some n ∧ n.ownFault? = some f ∧
      ∀ other m, e.at? other = some m → m.ownFault? ≠ none →
        path = other ∨ List.Lex (· < ·) path other := by
  rw [fault?_eq hnamed] at h
  rcases Option.or_eq_some_iff.1 h with hown | ⟨hown, h⟩
  · refine ⟨[], e, rfl, hown, fun other m _ _ => ?_⟩
    cases other with
    | nil => exact .inl rfl
    | cons i other => exact .inr .nil
  obtain ⟨before, c, after, hchildren, hc, hbefore⟩ := List.findSome?_eq_some_iff.1 h
  have hmem : c ∈ e.children := hchildren ▸ List.mem_append_right _ List.mem_cons_self
  obtain ⟨path, n, hn, hf, hfirst⟩ := exists_first_fault (hnamed.child hmem) hc
  have hget : e.children[before.length]? = some c := by
    rw [hchildren, List.getElem?_append_right (Nat.le_refl _), Nat.sub_self]
    rfl
  refine ⟨before.length :: path, n, ?_, hf, fun other m hm hown' => ?_⟩
  · rw [at?, hget]
    exact hn
  cases other with
  | nil =>
    obtain rfl := Option.some.inj hm
    exact absurd hown hown'
  | cons i other =>
    obtain ⟨d, hd, hbelow⟩ := Option.bind_eq_some_iff.1 hm
    rcases Nat.lt_trichotomy i before.length with hi | rfl | hi
    · -- Nodes below an earlier child have no fault.
      rw [hchildren, List.getElem?_append_left hi] at hd
      have hd := List.mem_of_getElem? hd
      have hnamed' : d.Named := hnamed.child (hchildren ▸ List.mem_append_left _ hd)
      exact absurd (ownFault?_of_at? (hbefore d hd) hbelow (hnamed'.at hbelow)) hown'
    · obtain rfl := Option.some.inj (hd.symm.trans hget)
      exact (hfirst other m hbelow hown').imp (congrArg _) .cons
    · exact .inr (.rel hi)
termination_by e.height
decreasing_by exact height_lt hmem

/-- With names where they must be, only bindings have faults of their own. -/
theorem ownFault?_ne_none_iff (hnamed : e.Named) {path : List Nat} (hn : e.at? path = some n) :
    n.ownFault? ≠ none ↔ e.RepeatsAt path := by
  have hiff : e.RepeatsAt path ↔
      ∃ span ds body, n = .letIn span ds body ∧ ¬ (ds.map (·.name.text)).Nodup := by
    rw [RepeatsAt, hn]
    simp only [Option.some.injEq]
  rw [hiff]
  constructor
  · intro hown
    cases n with
    | letIn span ds body =>
      exact ⟨span, ds, body, rfl, fun h => hown (declarationFault?_eq_none_iff.2 h)⟩
    | member span target key computed extended =>
      cases computed with
      | true => exact absurd rfl hown
      | false => exact absurd (if_pos (hnamed _ _ _ _ ⟨path, hn⟩)) hown
    | _ => exact absurd rfl hown
  · rintro ⟨span, ds, body, rfl, hrepeats⟩ hown
    exact hrepeats (declarationFault?_eq_none_iff.1 hown)

end Expr

open ExprLang.Expr

theorem Expression.ofTree_eq_error_iff {tree : Expr} {source : String} {options : Options}
    (hheight : tree.height ≤ maxHeight) {err : TreeError} :
    ofTree tree source options = .error err ↔
      ∃ f, tree.fault? = some f ∧ err = f.report source := by
  rw [ofTree, rejection?, deeperThan?_eq_none hheight]
  dsimp only
  cases tree.fault? with
  | none => exact ⟨nofun, fun ⟨_, hf, _⟩ => nomatch hf⟩
  | some f =>
    constructor
    · intro h
      exact ⟨f, rfl, (Except.error.inj h).symm⟩
    · rintro ⟨_, ⟨⟩, rfl⟩
      rfl

/-- A tree of at most 128 levels, whose accesses that are not computed have identifiers, is refused
exactly if a binding anywhere in it gives a name twice. The error is then that of the first such
binding, at the first of its names that occurred before in it. -/
theorem Expression.ofTree_refuses_iff {tree : Expr} (hheight : tree.height ≤ 128)
    (hnamed : tree.Named) (source : String) (options : Options) :
    ((∃ err, ofTree tree source options = .error err) ↔ ∃ path, tree.RepeatsAt path) ∧
    ∀ err, ofTree tree source options = .error err →
      ∃ path span before d after body,
        tree.at? path = some (.letIn span (before ++ d :: after) body) ∧
        d.name.text ∈ before.map (·.name.text) ∧ (before.map (·.name.text)).Nodup ∧
        (∀ other, tree.RepeatsAt other → path = other ∨ List.Lex (· < ·) path other) ∧
        err = .found ⟨500, .scope,
          "\"" ++ d.name.text ++ "\" name defined inside let expression was repeated", source,
          d.name.span⟩ := by
  refine ⟨⟨?_, ?_⟩, ?_⟩
  · rintro ⟨err, herr⟩
    obtain ⟨f, hf, -⟩ := (ofTree_eq_error_iff hheight).1 herr
    obtain ⟨path, n, hn, hown, -⟩ := exists_first_fault hnamed hf
    exact ⟨path, (ownFault?_ne_none_iff hnamed hn).1 (by rw [hown]; nofun)⟩
  · rintro ⟨path, hrepeats⟩
    by_contra hnone
    have hfault : tree.fault? = none := by
      by_contra hsome
      obtain ⟨f, hf⟩ := Option.ne_none_iff_exists'.1 hsome
      exact hnone ⟨_, (ofTree_eq_error_iff hheight).2 ⟨f, hf, rfl⟩⟩
    have ⟨span, ds, body, hn, _⟩ := hrepeats
    exact (ownFault?_ne_none_iff hnamed hn).2 hrepeats
      (ownFault?_of_at? hfault hn (hnamed.at hn))
  · intro err herr
    obtain ⟨f, hf, rfl⟩ := (ofTree_eq_error_iff hheight).1 herr
    obtain ⟨path, n, hn, hown, hfirst⟩ := exists_first_fault hnamed hf
    obtain ⟨span, ds, body, hlet, -⟩ :=
      (ownFault?_ne_none_iff hnamed hn).1 (by rw [hown]; nofun)
    obtain rfl := Option.some.inj (hn.symm.trans hlet)
    obtain ⟨before, d, after, rfl, hmem, hnodup, rfl⟩ := exists_of_declarationFault? hown
    refine ⟨path, span, before, d, after, body, hlet, hmem, hnodup, fun other hother => ?_, rfl⟩
    have ⟨_, _, _, hm, _⟩ := hother
    exact hfirst other _ hm ((ownFault?_ne_none_iff hnamed hm).2 hother)

/-- The tree of a function that is never called and whose body binds a name twice, to a property and
to null. -/
def uncalledBinding : Expr :=
  .lambda (place 0) []
    (.letIn (place 1)
      [⟨⟨"a", place 2⟩,
          .member (place 3) (.identifier (place 4) "o") (.identifier (place 5) "p") false false,
          place 6⟩,
        ⟨⟨"a", place 7⟩, .literal (place 8) .null, place 9⟩]
      (.identifier (place 10) "a"))
where place (n : Nat) : Span := .point ⟨n, 1, n + 1⟩

theorem named_uncalledBinding : uncalledBinding.Named := by
  have hleaf {e : Expr} (h : e.children = []) : e.Named := by
    refine named_of_children ?_ (h ▸ List.forall_mem_nil _)
    rintro _ _ _ _ rfl
    cases h
  have haccess : (Expr.member (uncalledBinding.place 3) (.identifier (uncalledBinding.place 4) "o")
      (.identifier (uncalledBinding.place 5) "p") false false).Named := by
    refine named_of_children ?_ (List.forall_mem_cons.2 ⟨hleaf rfl, ?_⟩)
    · rintro _ _ _ _ ⟨⟩
      rfl
    · exact List.forall_mem_singleton.2 (hleaf rfl)
  refine named_of_children nofun (List.forall_mem_singleton.2 (named_of_children nofun ?_))
  exact List.forall_mem_cons.2 ⟨haccess, List.forall_mem_cons.2 ⟨hleaf rfl,
    List.forall_mem_singleton.2 (hleaf rfl)⟩⟩

theorem Expression.ofTree_refuses_iff_uncalled :
    uncalledBinding.height ≤ 128 ∧ uncalledBinding.Named ∧
      ∃ err, ofTree uncalledBinding "" .standard = .error err :=
  ⟨by decide, named_uncalledBinding,
    (ofTree_refuses_iff (by decide) named_uncalledBinding "" .standard).1.2
      ⟨[0], _, _, _, rfl, by decide⟩⟩

end ExprLang
