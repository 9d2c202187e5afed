import ExprLang.Expr.Walker
import ExprLang.Proofs.EntryPoints
import ExprLang.Proofs.Shapes
import Mathlib.Algebra.GroupWithZero.Nat

/-!
Searching a tree for a node that lies too deep. A search with a stack of nodes still to be visited
finds what the recursive one finds, the first node past the limit in depth-first order, and it finds
none exactly if the tree is not higher than the limit. So no tree that was parsed is too high.
-/
namespace ExprLang.Expr

variable {e c n : Expr} {limit depth : Nat} {stack : List (Expr × Nat)}

/-- The number of nodes of a tree. -/
def size (e : Expr) : Nat := (e.children.attach.map fun c => c.1.size).sum + 1
termination_by e.height
decreasing_by exact height_lt c.2

theorem size_eq (e : Expr) : e.size = (e.children.map size).sum + 1 := by
  rw [size, List.attach_map_val]

/-- The children of a node are pushed from the last to the first, which is then on top. -/
def pushChildren (e : Expr) (depth : Nat) (stack : List (Expr × Nat)) : List (Expr × Nat) :=
  e.children.reverse.foldl (fun stack c => (c, depth + 1) :: stack) stack

theorem pushChildren_eq (e : Expr) (depth : Nat) (stack : List (Expr × Nat)) :
    e.pushChildren depth stack = e.children.map (fun c => (c, depth + 1)) ++ stack := by
  rw [pushChildren, List.foldl_reverse]
  induction e.children with
  | nil => rfl
  | cons c cs ih => rw [List.foldr_cons, ih, List.map_cons, List.cons_append]

/-- The number of nodes that lie below those on a stack, themselves included. -/
def waiting (stack : List (Expr × Nat)) : Nat := (stack.map fun p => p.1.size).sum

theorem waiting_pushChildren (e : Expr) (depth : Nat) (stack : List (Expr × Nat)) :
    waiting ((e, depth) :: stack) = waiting (e.pushChildren depth stack) + 1 := by
  rw [pushChildren_eq, waiting, waiting, List.map_cons, List.sum_cons, size_eq, List.map_append,
    List.sum_append, List.map_map, Nat.add_right_comm]
  rfl

/-- The first node to be visited that is deeper than the limit, where each node on the stack comes
with its own depth. -/
def search (limit : Nat) : List (Expr × Nat) → Option Expr
  | [] => none
  | (e, depth) :: stack =>
    if limit < depth then some e else search limit (e.pushChildren depth stack)
termination_by stack => waiting stack
decreasing_by exact waiting_pushChildren e depth stack ▸ Nat.lt_succ_self _

theorem deeperThan?_of_pos (h : depth ≤ limit) :
    e.deeperThan? (limit + 1 - depth) =
      e.children.findSome? (deeperThan? (limit + 1 - (depth + 1))) := by
  rw [Nat.add_sub_add_right, Nat.sub_add_comm h, deeperThan?]

/-- The nodes on the stack are searched one after the other. -/
theorem search_eq (limit : Nat) (stack : List (Expr × Nat)) :
    search limit stack = stack.findSome? fun p => p.1.deeperThan? (limit + 1 - p.2) := by
  fun_induction search limit stack with
  | case1 => rfl
  | case2 e depth stack hdeep =>
    have hlimit : limit + 1 - depth = 0 := Nat.sub_eq_zero_of_le hdeep
    rw [List.findSome?_cons, hlimit, deeperThan?]
  | case3 e depth stack hdeep ih =>
    rw [ih, pushChildren_eq, List.findSome?_append, List.findSome?_map, List.findSome?_cons,
      deeperThan?_of_pos (Nat.le_of_not_lt hdeep)]
    cases hfound : e.children.findSome? (deeperThan? (limit + 1 - (depth + 1))) with
    | none => exact congrArg (Option.or · _) hfound
    | some n => exact congrArg (Option.or · _) hfound

theorem search_root (limit : Nat) (e : Expr) : search limit [(e, 1)] = e.deeperThan? limit := by
  rw [search_eq, List.findSome?_singleton, Nat.add_sub_cancel]

theorem exists_of_lt_highest {es : List Expr} (h : limit < highest es) :
    ∃ e ∈ es, limit < e.height := by
  induction es with
  | nil => exact absurd h (Nat.not_lt_zero _)
  | cons e es ih =>
    rw [highest_cons] at h
    by_cases hlower : limit < highest es
    · obtain ⟨d, hd, hlt⟩ := ih hlower
      exact ⟨d, List.mem_cons_of_mem _ hd, hlt⟩
    · exact ⟨e, List.mem_cons_self, by omega⟩

theorem deeperThan?_eq_none_iff : e.deeperThan? limit = none ↔ e.height ≤ limit := by
  refine ⟨fun h => ?_, deeperThan?_eq_none⟩
  induction limit generalizing e with
  | zero => cases h
  | succ limit ih =>
    rw [deeperThan?, List.findSome?_eq_none_iff] at h
    by_contra hheight
    rw [Nat.not_le, height_eq, Nat.succ_lt_succ_iff] at hheight
    obtain ⟨c, hc, hlt⟩ := exists_of_lt_highest hheight
    exact absurd (ih (h c hc)) (Nat.not_le.2 hlt)

theorem length_lt_height {path : List Nat} (h : e.at? path = some n) : path.length < e.height := by
  induction path generalizing e with
  | nil =>
    rw [height_eq]
    exact Nat.succ_pos _
  | cons i path ih =>
    obtain ⟨c, hc, hn⟩ := Option.bind_eq_some_iff.1 h
    exact Nat.lt_of_le_of_lt (ih hn) (height_lt (List.mem_of_getElem? hc))

/-- The node that is found is the first one past the limit, where positions are compared number by
number and a node comes before those below it. -/
theorem exists_first_deeper (h : e.deeperThan? limit = some n) :
    ∃ path, e.at? path = some n ∧ path.length = limit ∧
      ∀ other m, e.at? other = some m → limit ≤ other.length →
        path = other ∨ List.Lex (· < ·) path other := by
  induction limit generalizing e with
  | zero =>
    obtain rfl := Option.some.inj h
    refine ⟨[], rfl, rfl, fun other m _ _ => ?_⟩
    cases other with
    | nil => exact .inl rfl
    | cons i other => exact .inr .nil
  | succ limit ih =>
    obtain ⟨before, c, after, hchildren, hc, hbefore⟩ := List.findSome?_eq_some_iff.1 h
    obtain ⟨path, hn, hlength, hfirst⟩ := ih hc
    have hget : e.children[before.length]? = some c := by
      rw [hchildren, List.getElem?_append_right (Nat.le_refl _), Nat.sub_self]
      rfl
    refine ⟨before.length :: path, ?_, congrArg (· + 1) hlength, fun other m hm hdeep => ?_⟩
    · rw [at?, hget]
      exact hn
    cases other with
    | nil => exact absurd hdeep (Nat.not_succ_le_zero _)
    | cons i other =>
      obtain ⟨d, hd, hbelow⟩ := Option.bind_eq_some_iff.1 hm
      have hbelowDeep : limit ≤ other.length := Nat.le_of_succ_le_succ hdeep
      rcases Nat.lt_trichotomy i before.length with hi | rfl | hi
      · -- Below an earlier child no node lies so deep.
        rw [hchildren, List.getElem?_append_left hi] at hd
        have hheight := deeperThan?_eq_none_iff.1 (hbefore d (List.mem_of_getElem? hd))
        exact absurd (length_lt_height hbelow) (Nat.not_lt.2 (hheight.trans hbelowDeep))
      · obtain rfl := Option.some.inj (hd.symm.trans hget)
        exact (hfirst other m hbelow hbelowDeep).imp (congrArg _) .cons
      · exact .inr (.rel hi)

/-- Nodes have no faults of their own for being high. -/
theorem fault?_ne_treeTooHigh (e : Expr) (span : Span) :
    e.fault? ≠ some (.found ⟨.treeTooHigh, span⟩) := by
  intro h
  obtain ⟨n, -, hown⟩ := exists_ownFault? h
  cases n with
  | letIn _ ds _ =>
    obtain ⟨m, -, hm⟩ := Option.map_eq_some_iff.1 hown
    cases hm
  | member _ _ key computed _ =>
    cases computed with
    | true => cases hown
    | false =>
      rw [ownFault?] at hown
      split at hown <;> cases hown
  | _ => cases hown

/-- The check of a tree's height that stands before its compilation finds nothing. -/
def PassesDepthCheck (e : Expr) : Prop :=
  search maxHeight [(e, 1)] = none ∧
    ∀ span, e.rejection? ≠ some (.found ⟨.treeTooHigh, span⟩)

theorem passesDepthCheck_of_eq_none (h : e.deeperThan? maxHeight = none) : e.PassesDepthCheck := by
  refine ⟨(search_root _ e).trans h, fun span => ?_⟩
  rw [rejection?, h]
  exact fault?_ne_treeTooHigh e span

theorem deeperThan?_of_ofTokens {ts : List Token} (h : (ofTokens ts).tree = some e) :
    e.deeperThan? maxHeight = none := by
  unfold ofTokens at h
  split at h
  · cases h
  · dsimp only at h
    split at h
    · cases h
    · rename_i hdeep
      exact Option.some.inj h ▸ hdeep

theorem deeperThan?_of_walk {calls : Nat} {ts : List Token} {parsed : Parsed} {w : Walker}
    (h : Walker.walk calls ts = some (parsed, w)) (he : parsed.tree = some e) :
    e.deeperThan? maxHeight = none := by
  obtain ⟨⟨tree, w'⟩, -, hfinish⟩ := Option.bind_eq_some_iff.1 h
  obtain ⟨token, -, hfinish⟩ := Option.bind_eq_some_iff.1 hfinish
  dsimp only at hfinish
  split at hfinish
  · cases hfinish
    cases he
  · rename_i hdeep
    cases hfinish
    obtain rfl := he
    exact hdeep

/-- The search with a stack finds what the recursive search finds: nothing exactly if the tree has
at most so many levels, and otherwise the first node in depth-first order of those that are one
level deeper, which stands before all nodes deeper than the limit. So every tree the parser makes,
of whatever tokens, passes the check before its compilation. -/
theorem search_finds_first (limit : Nat) (e : Expr) :
    search limit [(e, 1)] = e.deeperThan? limit ∧
    (search limit [(e, 1)] = none ↔ e.height ≤ limit) ∧
    (limit < e.height → ∃ path n, search limit [(e, 1)] = some n ∧ e.at? path = some n ∧
      path.length + 1 = limit + 1 ∧
      ∀ other m, e.at? other = some m → limit < other.length + 1 →
        path = other ∨ List.Lex (· < ·) path other) ∧
    (∀ text t, parse text = .ok t → t.PassesDepthCheck) ∧
    (∀ ts t, (ofTokens ts).tree = some t → t.PassesDepthCheck) ∧
    ∀ calls ts parsed w t, Walker.walk calls ts = some (parsed, w) → parsed.tree = some t →
      t.PassesDepthCheck := by
  refine ⟨search_root limit e, ?_, fun hheight => ?_, fun text t h => ?_, fun ts t h => ?_, ?_⟩
  · rw [search_root, deeperThan?_eq_none_iff]
  · have hfound : e.deeperThan? limit ≠ none := fun h =>
      absurd (deeperThan?_eq_none_iff.1 h) (Nat.not_le.2 hheight)
    obtain ⟨n, hn⟩ := Option.ne_none_iff_exists'.1 hfound
    obtain ⟨path, hpath, hlength, hfirst⟩ := exists_first_deeper hn
    exact ⟨path, n, (search_root limit e).trans hn, hpath, congrArg (· + 1) hlength,
      fun other m hm hdeep => hfirst other m hm (Nat.le_of_lt_succ hdeep)⟩
  · have htree : (ofTokens (lex text).tokens).tree = some t := by
      rw [(ofTokens_of_parse h).2]
    exact passesDepthCheck_of_eq_none (deeperThan?_of_ofTokens htree)
  · exact passesDepthCheck_of_eq_none (deeperThan?_of_ofTokens h)
  · intro calls ts parsed w t hwalk ht
    exact passesDepthCheck_of_eq_none (deeperThan?_of_walk hwalk ht)

/-- In the array `[x, , -x, x + x]` the leaves of the negation and of the sum lie past the second
level, and the negation stands first. -/
theorem search_finds_first_nested :
    let place (n : Nat) : Span := .point ⟨n, 1, n + 1⟩
    let leaf (n : Nat) : Expr := .identifier (place n) "x"
    let e : Expr := .array (place 0) [some (leaf 1), none, some (.unary (place 2) .minus (leaf 3)),
      some (.binary (place 4) .add (leaf 5) (leaf 6))]
    2 < e.height ∧ search 2 [(e, 1)] = some (leaf 3) ∧
      ∃ path n, search 2 [(e, 1)] = some n ∧ e.at? path = some n ∧ path.length + 1 = 2 + 1 ∧
        ∀ other m, e.at? other = some m → 2 < other.length + 1 →
          path = other ∨ List.Lex (· < ·) path other := by
  intro place leaf e
  have hheight : 2 < e.height := by decide
  have hsearch := search_finds_first 2 e
  exact ⟨hheight, hsearch.1.trans rfl, hsearch.2.2.1 hheight⟩

end ExprLang.Expr
