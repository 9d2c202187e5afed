import ExprLang.Proofs.Attribution

/-!
Failures of functions that other expressions made. A site does not say to whose listing it belongs,
so an expression looks up a foreign one in its own listing: it locates such a failure rightly only
by chance.
-/
namespace ExprLang

open ExprLang.Expr Listing

namespace Expression

/-- If the expression of that owner locates a failure at all, then at one of its own nodes that was
in progress. -/
def LocatesInside (x : Expression) (owner : Nat) (b : Blame) : Prop :=
  ∀ span, (x.explain b.fault).location = some span →
    ∃ m ∈ b.progress, m.owner = owner ∧ m.span = span

end Expression

/-- The failing node's own tree decides. A node of the expression itself is located; the site of a
node of another one is harmless only if it lies past the end of the listing, or if the fragment
found there has the span of a node in progress. -/
theorem locatesInside_iff {trees : Nat → Expr} {owner : Nat} {source : String} {options : Options}
    {x : Expression} (hx : Expression.ofTree (trees owner) source options = .ok x)
    (hword : x.listing.length < SpanTable.wordSize) (hp : options.policy.Transparent)
    {w : Store Node Node} (hw : w.All (Callable.Sound fun i => (trees i).layout)) (depth : Nat)
    (data : Option Value) :
    x.evaluate depth data w.compiled =
        ((x.watch (trees owner) owner depth data w).1.map (·.mapError fun b => x.explain b.fault),
          (x.watch (trees owner) owner depth data w).2.compiled) ∧
      ∀ b, (x.watch (trees owner) owner depth data w).1 = some (.error b) →
        ∃ n ∈ b.progress, b.node = some n ∧
          (x.explain b.fault).location = x.table.locate? n.site ∧
          (n.owner = owner → (x.explain b.fault).location = some n.span) ∧
          (x.LocatesInside owner b ↔ n.owner = owner ∨ x.listing.length < n.site ∨
            ∃ m ∈ b.progress, m.owner = owner ∧ x.table.locate? n.site = some m.span) := by
  obtain ⟨heval, -, hnames⟩ := Expression.evaluate_watch hx hp owner rfl hw depth data
  refine ⟨heval, fun b hb => ?_⟩
  obtain ⟨n, hn⟩ := hnames b hb
  have hown : n.owner = owner → (x.explain b.fault).location = some n.span := by
    rintro rfl
    exact Expression.explain_names hx hword hn rfl
  have hsite : (x.explain b.fault).location = x.table.locate? n.site := by
    rw [Expression.explain, Blame.fault, hn.1]
    rfl
  have hpast : x.table.locate? n.site = none ↔ x.listing.length < n.site := by
    obtain rfl := Expression.ofTree_eq_ok hx
    obtain ⟨f, at', hat, -⟩ := hn.2.1
    rw [Expression.listing, Fragment.length_join] at hword ⊢
    exact Fragment.locate?_eq_none (by omega) hword
  refine ⟨n, hn.2.2, hn.1, hsite, hown, ?_, ?_⟩
  · intro hinside
    cases hlocate : x.table.locate? n.site with
    | none => exact .inr (.inl (hpast.1 hlocate))
    | some span =>
      obtain ⟨m, hm, hmowner, rfl⟩ := hinside span (hsite.trans hlocate)
      exact .inr (.inr ⟨m, hm, hmowner, rfl⟩)
  · rintro (howner | hlast | ⟨m, hm, hmowner, hspan⟩) span hspan'
    · exact ⟨n, hn.2.2, howner, Option.some.inj ((hown howner).symm.trans hspan')⟩
    · rw [hsite, hpast.2 hlast] at hspan'
      cases hspan'
    · exact ⟨m, hm, hmowner, Option.some.inj (hspan.symm.trans (hsite.symm.trans hspan'))⟩

/-- The failing identifier of `() => aaaa` stands where the listing of `["aaaaaaaaaa", f()]` has the
text, long evaluated when `f` is called. -/
theorem text_blamed_for_call :
    let maker : Expr := .lambda (.columns 0 10) [] (.identifier (.columns 6 10) "aaaa")
    let text : Expr := .literal (.columns 1 13) (.string "aaaaaaaaaa")
    let tree : Expr := .array (.columns 0 19)
      [some text, some (.call (.columns 15 18) (.identifier (.columns 15 16) "f") [])]
    let data : Value := .object 0 [("f", .function 0)]
    ∃ x y b, Expression.ofTree maker "() => aaaa" .standard = .ok x ∧
      Expression.ofTree tree "[\"aaaaaaaaaa\", f()]" .standard = .ok y ∧
      (x.watch maker 0 1 none .empty).1 = some (.ok (.function 0)) ∧
      (y.watch tree 1 3 (some data) (x.watch maker 0 1 none .empty).2).1 = some (.error b) ∧
      (y.explain b.fault).location = some text.span ∧ ¬ y.LocatesInside 1 b := by
  intro maker text tree data
  let x : Expression := ⟨"() => aaaa", maker.layout, maker.compile 0, .standard⟩
  let y : Expression := ⟨"[\"aaaaaaaaaa\", f()]", tree.layout, tree.compile 0, .standard⟩
  let name : Node := ⟨0, .identifier (.columns 6 10) "aaaa", 5⟩
  let call : Node := ⟨1, .call (.columns 15 18) (.identifier (.columns 15 16) "f") [], 14⟩
  have hlocation : (y.explain ⟨.unknownIdentifier "aaaa", some name.site⟩).location =
      some text.span := by with_unfolding_all rfl
  refine ⟨x, y, ⟨.unknownIdentifier "aaaa", some name, [name, call, ⟨1, tree, 0⟩]⟩, rfl, rfl,
    by with_unfolding_all rfl, by with_unfolding_all rfl, hlocation, fun hinside => ?_⟩
  obtain ⟨m, hm, howner, hspan⟩ := hinside text.span hlocation
  simp only [List.mem_cons, List.not_mem_nil, or_false] at hm
  rcases hm with rfl | rfl | rfl
  · cases howner
  · exact absurd hspan (by decide)
  · exact absurd hspan (by decide)

/-- `[f()]` with `f` made by `() => aaaa`: here the site falls on the call, which is in progress. -/
theorem locatesInside_iff_array :
    let maker : Expr := .lambda (.columns 0 10) [] (.identifier (.columns 6 10) "aaaa")
    let tree : Expr := .array (.columns 0 5)
      [some (.call (.columns 1 4) (.identifier (.columns 1 2) "f") [])]
    let trees : Nat → Expr := fun i => if i = 0 then maker else tree
    let w : Store Node Node := ⟨#[.lambda [] ⟨0, .identifier (.columns 6 10) "aaaa", 5⟩
      (.ofContext ⟨.standard, none, none⟩)], 0, fun _ => .undefined, []⟩
    let data : Value := .object 0 [("f", .function 0)]
    ∃ x, Expression.ofTree (trees 1) "[f()]" .standard = .ok x ∧
      x.listing.length < SpanTable.wordSize ∧ Options.standard.policy.Transparent ∧
      w.All (Callable.Sound fun i => (trees i).layout) ∧
      ∃ b n, (x.watch (trees 1) 1 3 (some data) w).1 = some (.error b) ∧ b.node = some n ∧
        (x.explain b.fault).location = x.table.locate? n.site ∧
        (x.LocatesInside 1 b ↔ n.owner = 1 ∨ x.listing.length < n.site ∨
          ∃ m ∈ b.progress, m.owner = 1 ∧ x.table.locate? n.site = some m.span) := by
  intro maker tree trees w data
  have hw : w.All (Callable.Sound fun i => (trees i).layout) := by
    intro c hc
    obtain rfl := Array.eq_of_mem_singleton hc
    exact ⟨⟨[⟨Listing.thunkHead, .columns 0 10⟩], [⟨[')'], .columns 0 10⟩], rfl, by decide⟩,
      Policy.transparent_standard⟩
  let x : Expression := ⟨"[f()]", tree.layout, tree.compile 0, .standard⟩
  have hx : Expression.ofTree (trees 1) "[f()]" .standard = .ok x := rfl
  have hword : x.listing.length < SpanTable.wordSize := by decide +kernel
  obtain ⟨b, hb⟩ : ∃ b, (x.watch (trees 1) 1 3 (some data) w).1 = some (.error b) :=
    ⟨_, by with_unfolding_all rfl⟩
  obtain ⟨n, -, hn, hlocation, -, hiff⟩ :=
    (locatesInside_iff hx hword Policy.transparent_standard hw 3 (some data)).2 b hb
  exact ⟨x, hx, hword, Policy.transparent_standard, hw, b, n, hb, hn, hlocation, hiff⟩

end ExprLang
