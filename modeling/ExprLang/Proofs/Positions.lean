import ExprLang.Expr
import ExprLang.Listing

/-!
Positions in a tree. A row of child numbers leads from the root to a node, and the nodes passed on
the way put frames of names around it.
-/
namespace ExprLang.Expr

/-- The node that a row of child numbers leads to. -/
def at? : Expr → List Nat → Option Expr
  | e, [] => some e
  | e, i :: path => e.children[i]?.bind fun c => c.at? path

def HasNode (root n : Expr) : Prop := ∃ path, root.at? path = some n

/-- The names that a node itself gives. -/
def binders : Expr → List String
  | .lambda _ parameters _ => parameters.map (·.text)
  | .letIn _ declarations _ => declarations.map (·.name.text)
  | _ => []

/-- The frames that a node puts around one of its children, the innermost first: one for the
parameters of a lambda that has any, one for each declaration before the child, and one for the
topic of a stage. -/
def framesAround : Expr → Nat → List (List String)
  | .lambda _ parameters _, _ => if parameters.isEmpty then [] else [parameters.map (·.text)]
  | .letIn _ declarations _, i => ((declarations.take i).map fun d => [d.name.text]).reverse
  | .pipe .., i => if i = 0 then [] else [[topicName]]
  | _, _ => []

/-- The frames around a position, the innermost first. -/
def framesAt : Expr → List Nat → List (List String)
  | _, [] => []
  | e, i :: path => (e.children[i]?.elim [] fun c => c.framesAt path) ++ e.framesAround i

/-- Whether a position lies inside a stage of a pipe. -/
def InStage (root : Expr) (path : List Nat) : Prop :=
  ∃ outer i inner span head stages, path = outer ++ (i + 1) :: inner ∧
    root.at? outer = some (.pipe span head stages)

variable {root n c : Expr} {path inner : List Nat} {i : Nat}

theorem at?_append (root : Expr) (path inner : List Nat) :
    root.at? (path ++ inner) = (root.at? path).bind fun n => n.at? inner := by
  induction path generalizing root with
  | nil => rfl
  | cons i path ih =>
    rw [List.cons_append, at?, at?, Option.bind_assoc]
    exact congrArg _ (funext fun c => ih c)

theorem at?_concat (h : root.at? path = some n) (hc : n.children[i]? = some c) :
    root.at? (path ++ [i]) = some c := by
  rw [at?_append, h, Option.bind_some, at?, hc]
  rfl

theorem framesAt_append (h : root.at? path = some n) :
    root.framesAt (path ++ inner) = n.framesAt inner ++ root.framesAt path := by
  induction path generalizing root with
  | nil =>
    cases h
    exact (List.append_nil _).symm
  | cons i path ih =>
    rw [at?] at h
    obtain ⟨c, hc, h⟩ := Option.bind_eq_some_iff.1 h
    rw [List.cons_append, framesAt, framesAt, hc, Option.elim_some, Option.elim_some, ih h,
      List.append_assoc]

theorem framesAt_singleton (n : Expr) (i : Nat) : n.framesAt [i] = n.framesAround i := by
  rw [framesAt]
  cases n.children[i]? <;> rfl

theorem framesAt_concat (h : root.at? path = some n) :
    root.framesAt (path ++ [i]) = n.framesAround i ++ root.framesAt path := by
  rw [framesAt_append h, framesAt_singleton]

theorem hasNode_root (root : Expr) : root.HasNode root := ⟨[], rfl⟩

theorem HasNode.child (h : root.HasNode n) (hc : c ∈ n.children) : root.HasNode c := by
  obtain ⟨path, h⟩ := h
  obtain ⟨i, hi⟩ := List.getElem?_of_mem hc
  exact ⟨path ++ [i], at?_concat h hi⟩

theorem HasNode.of_child (hc : c ∈ root.children) (hn : c.HasNode n) : root.HasNode n := by
  obtain ⟨i, hi⟩ := List.getElem?_of_mem hc
  obtain ⟨path, hn⟩ := hn
  exact ⟨i :: path, by rw [at?, hi]; exact hn⟩

/-- What holds of a node and of all nodes below its children holds of all nodes below it. -/
theorem forall_hasNode {P : Expr → Prop} (h : P root)
    (hc : ∀ c ∈ root.children, ∀ n, c.HasNode n → P n) : ∀ n, root.HasNode n → P n := by
  rintro n ⟨_ | ⟨i, path⟩, hn⟩
  · cases hn
    exact h
  · rw [at?] at hn
    obtain ⟨c, hget, hn⟩ := Option.bind_eq_some_iff.1 hn
    exact hc c (List.mem_of_getElem? hget) n ⟨path, hn⟩

end ExprLang.Expr
