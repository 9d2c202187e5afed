import ExprLang.Proofs.Compilation
import ExprLang.Proofs.Correspondence.Execution
import ExprLang.Proofs.Correspondence.Outcomes
import ExprLang.Proofs.Correspondence.Trees

/-!
Only free names matter. What the globals and the data have under other names plays no part in an
evaluation under the standard policy, however deeply functions are nested and wherever they are
called.
-/
namespace ExprLang

variable {R H : Nat → Nat → Prop}

/-- The same value, holding no function, with arrays and objects in the places of those that `R`
pairs with them. -/
def Value.SameUpTo (R : Nat → Nat → Prop) : Value → Value → Prop := Value.Like R fun _ _ => False

theorem Value.Like.sameUpTo {v v' : Value} (h : Like R H v v') (hv : v.handles = []) :
    SameUpTo R v v' :=
  h.mono_on fun n hn => by simp [hv] at hn

/-- With the same arrays and objects it is just the same value. -/
theorem Value.sameUpTo_eq_iff {v v' : Value} : SameUpTo Eq v v' ↔ v = v' ∧ v.handles = [] := by
  constructor
  · intro h
    have hv : v.handles = [] := by
      have hhandles := Like.handles h
      generalize v.handles = ns, v'.handles = ns' at hhandles
      cases hhandles with
      | nil => rfl
      | cons hn _ => exact hn.elim
    exact ⟨Like.eq h hv, hv⟩
  · rintro ⟨rfl, hv⟩
    exact like_self (fun _ => rfl) v fun n hn => absurd (hv ▸ hn) List.not_mem_nil

/-- Failures of the same kind, with the same message and at the same place. -/
structure ExpressionError.SameFailure (e e' : ExpressionError) : Prop
    extends e.SameCause e' where
  location_eq : e.location = e'.location

/-- Evaluations with the same places and without functions from outside. -/
def Comparison.withoutHosts (R : Nat → Nat → Prop) (hR : Relator.BiUnique R) : Comparison where
  strict := True
  references := R
  slack := 0
  unique := hR
  references_eq h := absurd trivial h

/-- The free names and the topic. -/
def Expr.samePairs (e : Expr) : NamePairs := fun x x' => x = x' ∧ (x ∈ e.freeNames ∨ x = topicName)

theorem Expr.keeps_samePairs (e : Expr) : e.samePairs.Keeps topicName e.freeNames :=
  ⟨⟨rfl, .inr rfl⟩, fun hx _ => ⟨rfl, .inl hx⟩⟩

theorem Matches.answers {r r' : Except EvalError Value} (h : Matches Eq (Value.SameUpTo R) r r')
    (hr : ∀ e, r = .error e → e.received? = none) : Value.Answers R (fun _ _ => False) r r' := by
  cases h with
  | ok hv => exact .ok hv
  | error he =>
    subst he
    exact .error (.same (hr _ rfl))

theorem storeLike_fresh {hR : Relator.BiUnique R} {w : Store Code Nat}
    (hw : ∀ r, w.nextReference ≤ r → R r r) :
    (Comparison.withoutHosts R hR).StoreLike (fun _ _ => False) w w where
  references k := hw _ (Nat.le_add_right _ k)
  unique := ⟨fun _ _ _ h => h.elim, fun _ _ _ h => h.elim⟩
  functions h := h.elim
  cells h := absurd trivial h
  hostCalls h := absurd trivial h

/-- If resolving the free names of a tree gives the same for two pairs of globals and data,
evaluating it gives the same for both, at every depth of calls: the same failure, or the same value
if it holds no function. The arrays and objects of the one pair need not be those of the other, as
long as they are paired one to one. -/
theorem evaluate_of_freeNames {tree : Expr} {source : String} {o o' : Options} {x x' : Expression}
    (hx : Expression.ofTree tree source o = .ok x) (hx' : Expression.ofTree tree source o' = .ok x')
    (hp : o.policy = .standard) (hp' : o'.policy = .standard) {data data' : Option Value}
    (hR : Relator.BiUnique R) {w : Store Code Nat} (hw : ∀ r, w.nextReference ≤ r → R r r)
    (hfree : ∀ name ∈ tree.freeNames, Matches Eq (Value.SameUpTo R)
      (Policy.Standard.resolve name o.globals data) (Policy.Standard.resolve name o'.globals data'))
    (depth : Nat) :
    Option.Rel
      (Matches ExpressionError.SameFailure fun v v' => v.handles = [] → Value.SameUpTo R v v')
      (x.evaluate depth data w).1 (x'.evaluate depth data' w).1 := by
  obtain rfl := Expression.ofTree_eq_ok hx
  obtain rfl := Expression.ofTree_eq_ok hx'
  let S := Comparison.withoutHosts R hR
  have henv : S.EnvLike (fun _ _ => False) tree.samePairs (.ofContext ⟨o.policy, o.globals, data⟩)
      (.ofContext ⟨o'.policy, o'.globals, data'⟩) := by
    refine ⟨hp, hp', fun _ => .none, ?_⟩
    rintro name _ ⟨rfl, hname | rfl⟩ -
    · exact (hfree name hname).answers fun _ => Policy.Standard.received?_resolve
    · exact .error (.same rfl)
  have hcode : Code.Corresponds S 0 tree.samePairs (tree.compile 0) (tree.compile 0) :=
    tree.corresponds_compile (fun _ => rfl) tree.keeps_samePairs
  have hmeet := Comparison.runs_exec (Comparison.callsMeetAt depth) hcode (storeLike_fresh hw) henv
    (e := depth)
  have hrel := hmeet.rel (by simp [Comparison.Reaches, S, Comparison.withoutHosts])
    (Nat.le_refl depth)
  refine option_rel_map hrel fun r r' hr => ?_
  obtain ⟨H, -, hr⟩ := hr
  cases hr with
  | ok hv => exact .ok hv.sameUpTo
  | error hf =>
    have hsite := hf.site_eq trivial
    refine .error ⟨⟨hf.error.mono fun _ _ _ => trivial, hf.error.message_eq⟩, ?_⟩
    simp only [Expression.explain, hsite]
    rfl

/-- `(n => [a, n])(a.b)`, where the data have something else under `n` and more names, and where the
object under `a` is another one. -/
theorem evaluate_of_freeNames_application :
    let source := "(n => [a, n])(a.b)"
    let o : Options := ⟨none, .standard⟩
    let o' : Options := ⟨some (.object 0 [("c", .null)]), .standard⟩
    let data : Value := .object 0 [("a", .object 1 [("b", .string "d")]), ("n", .null)]
    let data' : Value := .object 1 [("n", .bool true), ("a", .object 2 [("b", .string "d")])]
    let R : Nat → Nat → Prop := fun r r' => r = 1 ∧ r' = 2 ∨ 3 ≤ r ∧ r = r'
    let w : Store Code Nat := { Store.empty with nextReference := 3 }
    ∃ tree x x', Expr.parse source = .ok tree ∧ Expression.ofTree tree source o = .ok x ∧
      Expression.ofTree tree source o' = .ok x' ∧ tree.freeNames = ["a", "a"] ∧
      Relator.BiUnique R ∧ (∀ r, w.nextReference ≤ r → R r r) ∧
      (∀ name ∈ tree.freeNames, Matches Eq (Value.SameUpTo R)
        (Policy.Standard.resolve name o.globals (some data))
        (Policy.Standard.resolve name o'.globals (some data'))) ∧
      (x.evaluate 1 (some data) w).1.isSome ∧
      Option.Rel
        (Matches ExpressionError.SameFailure fun v v' => v.handles = [] → Value.SameUpTo R v v')
        (x.evaluate 1 (some data) w).1 (x'.evaluate 1 (some data') w).1 := by
  intro source o o' data data' R w
  have hchecked : ((Expr.parse source).toOption.any fun tree =>
      tree.freeNames == ["a", "a"] && tree.rejection? == none &&
        ((⟨source, tree.layout, tree.compile 0, o⟩ : Expression).evaluate 1 (some data)
          w).1.isSome) = true := by
    decide +kernel
  have hR : Relator.BiUnique R := by
    constructor
    · rintro r q s (⟨rfl, rfl⟩ | ⟨hr, rfl⟩) (⟨rfl, hs⟩ | ⟨hq, rfl⟩) <;> omega
    · rintro r q s (⟨rfl, rfl⟩ | ⟨hr, rfl⟩) (⟨hr', rfl⟩ | ⟨hq, rfl⟩) <;> omega
  have hw : ∀ r, w.nextReference ≤ r → R r r := fun r hr => .inr ⟨hr, rfl⟩
  cases htree : Expr.parse source with
  | error log =>
    rw [htree] at hchecked
    cases hchecked
  | ok tree =>
    rw [htree] at hchecked
    simp only [Except.toOption, Option.any_some, Bool.and_eq_true, beq_iff_eq] at hchecked
    obtain ⟨⟨hnames, haccepted⟩, hsome⟩ := hchecked
    have hx : Expression.ofTree tree source o = .ok ⟨source, tree.layout, tree.compile 0, o⟩ := by
      rw [Expression.ofTree, haccepted]
    have hx' : Expression.ofTree tree source o' =
        .ok ⟨source, tree.layout, tree.compile 0, o'⟩ := by
      rw [Expression.ofTree, haccepted]
    have hfree : ∀ name ∈ tree.freeNames, Matches Eq (Value.SameUpTo R)
        (Policy.Standard.resolve name o.globals (some data))
        (Policy.Standard.resolve name o'.globals (some data')) := by
      intro name hname
      obtain rfl : name = "a" := by simpa [hnames] using hname
      exact .ok (.object (.inl ⟨rfl, rfl⟩) (.cons (.mk (.simple rfl)) .nil))
    exact ⟨tree, _, _, rfl, hx, hx', hnames, hR, hw, hfree, hsome,
      evaluate_of_freeNames hx hx' rfl rfl hR hw hfree 1⟩

end ExprLang
