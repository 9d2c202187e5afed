import ExprLang.Proofs.Attribution
import ExprLang.Proofs.Positions
import Mathlib.Algebra.GroupWithZero.Nat

/-!
The fragments of a listing tile it: every character lies in exactly one of them, where the table of
spans finds it, and every site in the code of a tree is the first character of a fragment that
belongs to the node which recorded the site.
-/
namespace ExprLang

open ExprLang.Expr Listing
open Fragment (Within)

namespace Fragment

theorem sum_sizes (fs : List Fragment) :
    ((table fs).entries.map (·.size)).sum = (join fs).length := by
  rw [length_join]
  induction fs with
  | nil => rfl
  | cons f fs ih => exact congrArg (f.text.length + ·) ih

theorem totalSize_table (fs : List Fragment) (hword : size fs < SpanTable.wordSize) :
    (table fs).listingSize = size fs := by
  induction fs with
  | nil => rfl
  | cons f fs ih =>
    rw [size] at hword
    have hrest : SpanTable.totalSize (table fs).entries = size fs := ih (by omega)
    change (f.text.length + SpanTable.totalSize (table fs).entries) % _ = _
    rw [hrest, Nat.mod_eq_of_lt hword, size]

/-- The fragment of this number holds the character at this position. Positions count from 1. -/
structure Holds (fs : List Fragment) (position i : Nat) (f : Fragment) : Prop where
  get : fs[i]? = some f
  past : size (fs.take i) < position
  upTo : position ≤ size (fs.take i) + f.text.length

namespace Holds

variable {fs : List Fragment} {f g : Fragment} {position i j : Nat}

theorem eq_append (h : Holds fs position i f) : fs = fs.take i ++ f :: fs.drop (i + 1) := by
  obtain ⟨hi, rfl⟩ := List.getElem?_eq_some_iff.1 h.get
  rw [← List.drop_eq_getElem_cons hi, List.take_append_drop]

theorem exists_of_le (hpos : 0 < position) (hle : position ≤ size fs) :
    ∃ i f, Holds fs position i f := by
  induction fs generalizing position with
  | nil => exact absurd hle (by rw [size]; omega)
  | cons f fs ih =>
    by_cases hfirst : position ≤ f.text.length
    · exact ⟨0, f, rfl, hpos, by rw [List.take_zero, size]; omega⟩
    · rw [size] at hle
      obtain ⟨i, g, hget, hpast, hupTo⟩ := @ih (position - f.text.length) (by omega) (by omega)
      refine ⟨i + 1, g, hget, ?_, ?_⟩ <;> rw [List.take_succ_cons, size] <;> omega

theorem size_take_le (h : Holds fs position i f) (hj : i < j) :
    size (fs.take i) + f.text.length ≤ size (fs.take j) := by
  obtain ⟨d, rfl⟩ := Nat.exists_eq_add_of_lt hj
  obtain ⟨hi, rfl⟩ := List.getElem?_eq_some_iff.1 h.get
  rw [show i + d + 1 = i + 1 + d by omega, List.take_add, List.take_succ_eq_append_getElem hi,
    size_append, size_append, size, size]
  omega

theorem unique (h : Holds fs position i f) (h' : Holds fs position j g) : i = j := by
  have hij := h.upTo
  have hji := h'.upTo
  have hi := h.past
  have hj := h'.past
  rcases Nat.lt_trichotomy i j with hlt | rfl | hlt
  · have := h.size_take_le hlt
    omega
  · rfl
  · have := h'.size_take_le hlt
    omega

theorem getElem?_join (h : Holds fs position i f) :
    (join fs)[position - 1]? = f.text[position - 1 - size (fs.take i)]? := by
  have hpast := h.past
  have hupTo := h.upTo
  rw [h.eq_append]
  simp only [join, List.flatMap_append, List.flatMap_cons]
  change (join (fs.take i) ++ _)[_]? = _
  rw [List.getElem?_append_right (by rw [length_join]; omega), length_join,
    List.getElem?_append_left (by omega)]
  rw [← h.eq_append]

theorem locate? (h : Holds fs position i f) (hword : size fs < SpanTable.wordSize) :
    (table fs).locate? position = some f.span := by
  have hpast := h.past
  have hupTo := h.upTo
  rw [h.eq_append] at hword ⊢
  rw [size_append, size] at hword
  have hreached : (size (fs.take i) + f.text.length) % SpanTable.wordSize =
      size (fs.take i) + f.text.length := Nat.mod_eq_of_lt (by omega)
  rw [table, SpanTable.locate?, List.map_append, locateIn_append _ _ (by omega) (by omega),
    List.map_cons, SpanTable.locateIn]
  simp only [Nat.zero_add, hreached]
  rw [if_pos hupTo]

end Holds

/-- What comes after an item that is not the last one and the comma behind it. -/
theorem Within.past_separator {listing fs gs : List Fragment} {f : Fragment} {start : Nat}
    {last : Bool} (h : Within listing start (fs ++ (if last then [] else [f]) ++ gs))
    (hlast : last = false) : Within listing (start + size fs + f.text.length) gs := by
  rw [hlast, if_neg Bool.false_ne_true] at h
  refine h.right.at_eq ?_
  rw [size_append, size, size, Nat.add_zero, Nat.add_assoc]

theorem Within.exists_getElem? {listing : List Fragment} {start : Nat} {f : Fragment}
    {fs : List Fragment} (h : Within listing start (f :: fs)) :
    ∃ i, listing[i]? = some f ∧ size (listing.take i) = start := by
  obtain ⟨before, after, rfl, hsize⟩ := h
  refine ⟨before.length, ?_, ?_⟩
  · rw [List.append_assoc, List.getElem?_append_right le_rfl, Nat.sub_self]
    rfl
  · rw [List.append_assoc, List.take_left, hsize]

end Fragment

namespace Code

def children : Code → List Code
  | .undefined | .constant _ | .lookup .. | .topic _ => []
  | .unary _ _ argument => [argument]
  | .binary _ _ left right | .logical _ _ left right | .coalesce left right => [left, right]
  | .conditional test consequent alternate => [test, consequent, alternate]
  | .object entries => entries.map (·.2)
  | .array elements => elements.filterMap id
  | .property _ target key => [target, key]
  | .callBare _ callee => [callee]
  | .call _ callee arguments | .curry _ callee arguments => callee :: arguments.filterMap id
  | .pipe _ head stages => head :: stages.map (·.2)
  | .lambda _ body => [body]
  | .letIn _ init body => [init, body]

/-- The site that a failure of this code itself is put down to. -/
def site? : Code → Option Nat
  | .lookup site _ | .topic site | .unary site .. | .binary site .. | .logical site ..
  | .property site .. | .callBare site _ | .call site .. | .curry site .. | .pipe site .. =>
    some site
  | .undefined | .constant _ | .coalesce .. | .conditional .. | .object _ | .array _ | .lambda ..
  | .letIn .. => none

inductive HasPart (root : Code) : Code → Prop where
  | root : HasPart root root
  | child {c d : Code} (h : HasPart root c) (hd : d ∈ c.children) : HasPart root d

end Code

namespace Expr

/-- Code that was made from nodes whose fragments stand in the listing of the tree. A binding is
spread over several pieces of code, one for each name. -/
inductive Stands (tree : Expr) : Code → Prop where
  | node {n : Expr} {start : Nat} (hn : tree.HasNode n)
    (hlet : ∀ span declarations body, n ≠ .letIn span declarations body)
    (h : Within tree.layout start n.layout) : Stands tree (n.compile start)
  | letIn {name : String} {init body : Code} (hinit : Stands tree init)
    (hbody : Stands tree body) : Stands tree (.letIn name init body)
  | fixed {c : Code} (hchildren : c.children = []) (hsite : c.site? = none) : Stands tree c

theorem mem_of_mem_given {α : Type} {a : α} {xs : List (Option α)}
    (h : a ∈ xs.filterMap id) : some a ∈ xs := by
  obtain ⟨x, hx, rfl⟩ := List.mem_filterMap.1 h
  exact hx

section Steps

variable {tree : Expr} {d : Code}

mutual

theorem stands_compile : ∀ (n : Expr) (start : Nat), tree.HasNode n →
    Within tree.layout start n.layout → Stands tree (n.compile start)
  | .letIn span declarations body, start, hn, h => by
    have hinit : ∀ d ∈ declarations, tree.HasNode d.init := fun d hd =>
      hn.child (List.mem_append_left _ (List.mem_map_of_mem hd))
    have hbody : tree.HasNode body := hn.child (List.mem_append_right _ List.mem_cons_self)
    refine stands_declarations declarations _ hinit h.left.left.tail
      (stands_compile body _ hbody (h.left.right.tail.at_eq ?_))
    simp only [Fragment.size]
    omega
  | .literal .., _, hn, h | .identifier .., _, hn, h | .topic _, _, hn, h | .unary .., _, hn, h
  | .binary .., _, hn, h | .logical .., _, hn, h | .coalesce .., _, hn, h
  | .conditional .., _, hn, h | .object .., _, hn, h | .array .., _, hn, h | .member .., _, hn, h
  | .call .., _, hn, h | .pipe .., _, hn, h | .lambda .., _, hn, h =>
    .node hn (fun _ _ _ e => nomatch e) h

theorem stands_declarations : ∀ (ds : List (Declaration Expr)) (start : Nat) {c : Code},
    (∀ d ∈ ds, tree.HasNode d.init) → Within tree.layout start (declarationsLayout ds) →
    Stands tree c → Stands tree (compileDeclarations ds start c)
  | [], _, _, _, _, hc => hc
  | ⟨name, init, _⟩ :: ds, _, _, hinit, h, hc => by
    obtain ⟨hfirst, hrest⟩ := List.forall_mem_cons.1 hinit
    refine .letIn (stands_compile init _ hfirst h.left.left.tail)
      (stands_declarations ds _ hrest (h.right.at_eq ?_) hc)
    simp only [Fragment.size, Fragment.size_append, width]
    omega

end

theorem stands_plainKey (key : Expr) : Stands tree key.plainKey := by
  cases key <;> exact .fixed rfl rfl

theorem stands_alternate {span : Span} {e : Option Expr} {start : Nat}
    (hn : ∀ n ∈ e, tree.HasNode n) (h : Within tree.layout start (alternateLayout span e)) :
    Stands tree (compileAlternate e start) := by
  cases e with
  | none => exact .fixed rfl rfl
  | some n => exact stands_compile n start (hn n rfl) h

theorem stands_property {span : Span} {ps : List (Property Expr)} {start : Nat}
    (hn : ∀ p ∈ ps, tree.HasNode p.value)
    (h : Within tree.layout start (propertiesLayout span ps))
    (hd : d ∈ (compileProperties ps start).map (·.2)) : Stands tree d := by
  induction ps generalizing start with
  | nil => cases hd
  | cons p ps ih =>
    obtain ⟨hp, hps⟩ := List.forall_mem_cons.1 hn
    rcases List.mem_cons.1 hd with rfl | hd
    · refine stands_compile p.value _ hp (h.left.left.tail.tail.at_eq ?_)
      simp only [List.length_singleton]
    · have hrest : ps.isEmpty = false := by
        cases ps with
        | nil => cases hd
        | cons => rfl
      refine ih hps ((h.past_separator hrest).at_eq ?_) hd
      simp only [Fragment.size, width, List.length_singleton]
      omega

theorem stands_element {span : Span} {es : List (Option Expr)} {start : Nat}
    (hn : ∀ n, some n ∈ es → tree.HasNode n)
    (h : Within tree.layout start (elementsLayout span es))
    (hd : some d ∈ compileElements es start) : Stands tree d := by
  induction es generalizing start with
  | nil => cases hd
  | cons e es ih =>
    rcases List.mem_cons.1 hd with hd | hd
    · cases e with
      | none => cases hd
      | some n =>
        cases hd
        exact stands_compile n _ (hn n List.mem_cons_self) h.left.left
    · have hrest : es.isEmpty = false := by
        cases es with
        | nil => cases hd
        | cons => rfl
      exact ih (fun n hmem => hn n (List.mem_cons_of_mem _ hmem)) (h.past_separator hrest) hd

theorem stands_argument {span : Span} {as : List (Argument Expr)} {i start : Nat}
    (hn : ∀ n, .value n ∈ as → tree.HasNode n)
    (h : Within tree.layout start (argumentsLayout span i as))
    (hd : some d ∈ compileArguments as i start) : Stands tree d := by
  induction as generalizing i start with
  | nil => cases hd
  | cons a as ih =>
    rcases List.mem_cons.1 hd with hd | hd
    · cases a with
      | placeholder _ => cases hd
      | value n =>
        cases hd
        exact stands_compile n _ (hn n List.mem_cons_self) h.left.left
    · have hrest : as.isEmpty = false := by
        cases as with
        | nil => cases hd
        | cons => rfl
      exact ih (fun n hmem => hn n (List.mem_cons_of_mem _ hmem)) (h.past_separator hrest) hd

theorem stands_stage {ss : List (Stage Expr)} {start : Nat}
    (hn : ∀ s ∈ ss, tree.HasNode s.body) (h : Within tree.layout start (stagesLayout ss))
    (hd : d ∈ (compileStages ss start).map (·.2)) : Stands tree d := by
  induction ss generalizing start with
  | nil => cases hd
  | cons s ss ih =>
    obtain ⟨hs, hss⟩ := List.forall_mem_cons.1 hn
    rcases List.mem_cons.1 hd with rfl | hd
    · exact stands_compile s.body _ hs h.left.left.tail
    · have hrest : ss.isEmpty = false := by
        cases ss with
        | nil => cases hd
        | cons => rfl
      rw [stagesLayout, List.append_cons] at h
      refine ih hss ((h.past_separator hrest).at_eq ?_) hd
      simp only [Fragment.size, Fragment.size_append, width, List.length_singleton]
      omega

theorem Stands.child {c : Code} (hc : Stands tree c) (hd : d ∈ c.children) : Stands tree d := by
  cases hc with
  | letIn hinit hbody =>
    rcases List.mem_cons.1 hd with rfl | hd
    · exact hinit
    · exact List.mem_singleton.1 hd ▸ hbody
  | fixed hchildren _ =>
    rw [hchildren] at hd
    cases hd
  | @node n start hn hlet h =>
    cases n with
    | literal | identifier | topic => cases hd
    | letIn => exact absurd rfl (hlet _ _ _)
    | unary span op argument =>
      obtain rfl := List.mem_singleton.1 hd
      exact stands_compile argument _ (hn.child List.mem_cons_self) h.tail.left
    | binary span op left right =>
      rcases List.mem_pair.1 hd with rfl | rfl
      · exact stands_compile left _ (hn.child List.mem_cons_self) h.left.left.tail
      · refine stands_compile right _ (hn.child (by simp [children]))
          (h.left.right.tail.at_eq ?_)
        simp only [Fragment.size, width, List.length_singleton]
        omega
    | logical span op left right =>
      rcases List.mem_pair.1 hd with rfl | rfl
      · exact stands_compile left _ (hn.child List.mem_cons_self) h.left.left.tail
      · refine stands_compile right _ (hn.child (by simp [children]))
          (h.left.right.tail.at_eq ?_)
        simp only [Fragment.size, width]
        omega
    | coalesce span left right =>
      rcases List.mem_pair.1 hd with rfl | rfl
      · exact stands_compile left _ (hn.child List.mem_cons_self) h.left.left.tail
      · refine stands_compile right _ (hn.child (by simp [children]))
          (h.left.right.tail.at_eq ?_)
        simp only [Fragment.size, width, List.length_cons, List.length_nil]
        omega
    | conditional span test consequent alternate =>
      rcases List.mem_cons.1 hd with rfl | hd
      · exact stands_compile test _ (hn.child List.mem_cons_self) h.left.left.left.tail
      rcases List.mem_pair.1 hd with rfl | rfl
      · refine stands_compile consequent _ (hn.child (by simp [children]))
          (h.left.left.right.tail.at_eq ?_)
        simp only [Fragment.size, width]
        omega
      · refine stands_alternate (fun e he => hn.child ?_) (h.left.right.tail.at_eq ?_)
        · exact List.mem_cons_of_mem _ (List.mem_cons_of_mem _ (Option.mem_toList.2 he))
        · simp only [Fragment.size, Fragment.size_append, width, List.length_singleton]
          omega
    | object span properties =>
      exact stands_property (fun p hp => hn.child (List.mem_map_of_mem hp)) h.left.tail hd
    | array span elements =>
      refine stands_element (fun n hmem => hn.child ?_) h.left.tail (mem_of_mem_given hd)
      exact List.mem_filterMap.2 ⟨some n, hmem, rfl⟩
    | member span target key computed extended =>
      rcases List.mem_pair.1 hd with rfl | rfl
      · exact stands_compile target _ (hn.child List.mem_cons_self) h.left.left.tail
      cases computed with
      | false => exact stands_plainKey key
      | true =>
        refine stands_compile key _ (hn.child (by simp [children]))
          (h.left.right.tail.at_eq ?_)
        simp only [Fragment.size, width, List.length_singleton]
        omega
    | call span callee arguments =>
      have hcallee : tree.HasNode callee := hn.child List.mem_cons_self
      have harguments : ∀ n, .value n ∈ arguments → tree.HasNode n := fun n hmem =>
        hn.child (List.mem_cons_of_mem _ (List.mem_filterMap.2 ⟨.value n, hmem, rfl⟩))
      rw [layout] at h
      rw [compile] at hd
      by_cases hnil : arguments.isEmpty
      · rw [if_pos hnil] at h hd
        obtain rfl := List.mem_singleton.1 hd
        exact stands_compile callee _ hcallee h.left.tail
      rw [if_neg hnil] at h hd
      by_cases hmissing : arguments.any (·.isPlaceholder)
      · rw [if_pos hmissing] at h
        simp only [if_pos hmissing] at hd
        have hinner := h.left.tail
        rcases List.mem_cons.1 hd with rfl | hd
        · exact stands_compile callee _ hcallee hinner.left.left.tail
        · refine stands_argument harguments (hinner.left.right.tail.at_eq ?_)
            (mem_of_mem_given hd)
          simp only [Fragment.size, width]
          omega
      · rw [if_neg hmissing] at h
        simp only [if_neg hmissing] at hd
        rcases List.mem_cons.1 hd with rfl | hd
        · exact stands_compile callee _ hcallee h.left.left.tail
        · refine stands_argument harguments (h.left.right.tail.at_eq ?_) (mem_of_mem_given hd)
          simp only [Fragment.size, width]
          omega
    | pipe span head stages =>
      rcases List.mem_cons.1 hd with rfl | hd
      · exact stands_compile head _ (hn.child List.mem_cons_self) h.left.left.tail
      · refine stands_stage (fun s hs => hn.child ?_) (h.left.right.tail.at_eq ?_) hd
        · exact List.mem_cons_of_mem _ (List.mem_map_of_mem hs)
        · simp only [Fragment.size, width]
          omega
    | lambda span parameters body =>
      obtain rfl := List.mem_singleton.1 hd
      refine stands_compile body _ (hn.child List.mem_cons_self) ?_
      rw [layout] at h
      by_cases hnil : parameters.isEmpty
      · rw [if_pos hnil] at h
        simp only [if_pos hnil]
        exact h.left.tail
      · rw [if_neg hnil] at h
        simp only [if_neg hnil]
        exact h.left.tail

theorem stands_of_hasPart {root c : Code} (hroot : Stands tree root) (hc : root.HasPart c) :
    Stands tree c := by
  induction hc with
  | root => exact hroot
  | child _ hd ih => exact ih.child hd

end Steps

/-- The site is the first character of a fragment that belongs to a node of the tree, and this is
the code of that node. -/
def Records (tree : Expr) (c : Code) (site : Nat) : Prop :=
  ∃ n start i f, tree.HasNode n ∧ c = n.compile start ∧ tree.layout[i]? = some f ∧
    site = Fragment.size (tree.layout.take i) + 1 ∧ f.span = n.span

theorem records_of_head {tree n : Expr} {start start' : Nat} {f : Fragment} {fs : List Fragment}
    (hn : tree.HasNode n) (h : Within tree.layout start' (f :: fs)) (hspan : f.span = n.span) :
    tree.Records (n.compile start) (start' + 1) := by
  obtain ⟨i, hget, rfl⟩ := h.exists_getElem?
  exact ⟨n, start, i, f, hn, rfl, hget, rfl, hspan⟩

theorem Stands.records {tree : Expr} {c : Code} (hc : Stands tree c) {site : Nat}
    (hsite : c.site? = some site) : tree.Records c site := by
  cases hc with
  | letIn => cases hsite
  | fixed _ hnone =>
    rw [hnone] at hsite
    cases hsite
  | @node n start hn hlet h =>
    cases n with
    | literal | coalesce | conditional | object | array | lambda => cases hsite
    | letIn => exact absurd rfl (hlet _ _ _)
    | identifier | topic | unary | binary | logical | member | pipe =>
      cases hsite
      exact records_of_head hn h rfl
    | call span callee arguments =>
      -- Where there are placeholders, the site lies behind the fragment that takes them.
      rw [layout] at h
      rw [compile] at hsite
      by_cases hnil : arguments.isEmpty
      · rw [if_pos hnil] at h hsite
        cases hsite
        exact records_of_head hn h rfl
      rw [if_neg hnil] at h hsite
      by_cases hmissing : arguments.any (·.isPlaceholder)
      · rw [if_pos hmissing] at h
        simp only [if_pos hmissing] at hsite
        cases hsite
        exact records_of_head hn h.left.tail.left.left rfl
      · rw [if_neg hmissing] at h
        simp only [if_neg hmissing] at hsite
        cases hsite
        exact records_of_head hn h.left.left rfl

end Expr

/-- The fragments of an expression tile its listing: none is empty, their sizes add up to its
length, each site in the code is the first character of a fragment of the node that recorded it,
and, the listing being no longer than a word can count, the table finds for every character the span
of the one fragment that holds it, and nothing past the last. -/
theorem fragments_tile {tree : Expr} {source : String} {options : Options} {x : Expression}
    (hx : Expression.ofTree tree source options = .ok x) :
    Fragment.AllWritten x.fragments ∧
    (x.table.entries.map (·.size)).sum = x.listing.length ∧
    (∀ c site, x.code.HasPart c → c.site? = some site →
      ∃ n start i f, tree.HasNode n ∧ c = n.compile start ∧ x.fragments[i]? = some f ∧
        site = Fragment.size (x.fragments.take i) + 1 ∧ f.span = n.span) ∧
    (x.listing.length < SpanTable.wordSize →
      x.table.listingSize = x.listing.length ∧
      (∀ position, 0 < position → position ≤ x.listing.length →
        ∃ i f, Fragment.Holds x.fragments position i f ∧
          x.listing[position - 1]? =
            f.text[position - 1 - Fragment.size (x.fragments.take i)]? ∧
          x.table.locate? position = some f.span ∧
          ∀ j g, Fragment.Holds x.fragments position j g → j = i) ∧
      ∀ position, x.listing.length < position → x.table.locate? position = none) := by
  obtain rfl := Expression.ofTree_eq_ok hx
  refine ⟨allWritten_layout tree, Fragment.sum_sizes _, fun c site hc hsite => ?_,
    fun hword => ?_⟩
  · have hroot : Stands tree (tree.compile 0) :=
      stands_compile tree 0 (hasNode_root tree)
        ⟨[], [], by rw [List.nil_append, List.append_nil], rfl⟩
    exact (stands_of_hasPart hroot hc).records hsite
  · rw [Expression.listing, Fragment.length_join] at hword ⊢
    refine ⟨Fragment.totalSize_table _ hword, fun position hpos hle => ?_,
      fun position hpast => (Fragment.locate?_eq_none (by omega) hword).2 hpast⟩
    obtain ⟨i, f, hf⟩ := Fragment.Holds.exists_of_le hpos hle
    exact ⟨i, f, hf, hf.getElem?_join, hf.locate? hword, fun j g hg => hg.unique hf⟩

/-- `f("é")`, whose listing is `call(get(scope,"f"),["é"])`. -/
theorem fragments_tile_call :
    let tree : Expr := .call (.columns 0 6) (.identifier (.columns 0 1) "f")
      [.value (.literal (.columns 2 5) (.string "é"))]
    ∃ x, Expression.ofTree tree "f(\"é\")" .standard = .ok x ∧
      x.listing = "call(get(scope,\"f\"),[\"é\"])".toList ∧
      (∃ c, x.code.HasPart c ∧ c.site? = some 6 ∧ ∃ n start i f, tree.HasNode n ∧
        c = n.compile start ∧ x.fragments[i]? = some f ∧
        6 = Fragment.size (x.fragments.take i) + 1 ∧ f.span = n.span) ∧
      x.table.listingSize = x.listing.length ∧
      (∃ i f, Fragment.Holds x.fragments 22 i f ∧ x.table.locate? 22 = some f.span) ∧
      x.table.locate? 27 = none := by
  intro tree
  let x : Expression := ⟨"f(\"é\")", tree.layout, tree.compile 0, .standard⟩
  have hx : Expression.ofTree tree "f(\"é\")" .standard = .ok x := rfl
  obtain ⟨-, -, hsites, hlocate⟩ := fragments_tile hx
  obtain ⟨hsize, hholds, hpast⟩ := hlocate (by decide +kernel)
  have hpart : x.code.HasPart (.lookup 6 "f") := .child .root List.mem_cons_self
  obtain ⟨i, f, hf, -, hspan, -⟩ := hholds 22 (by decide) (by decide +kernel)
  exact ⟨x, hx, by decide +kernel, ⟨_, hpart, rfl, hsites _ 6 hpart rfl⟩, hsize, ⟨i, f, hf, hspan⟩,
    hpast 27 (by decide +kernel)⟩

end ExprLang
