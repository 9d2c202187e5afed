import ExprLang.Proofs.Documents.Trees

/-!
Decoders against the documents they are for. A decoder takes the document of a tree whenever there
is room for its nesting and its numbers can be read, and gives the tree with its numbers as read.
-/
namespace ExprLang

open Json (nesting nestingItems nestingMembers)

/-- An optional value that is there under a condition, and what it is then. -/
def Gives {α : Type} (o : Option α) (p : Prop) (a : α) : Prop := ∀ b, o = some b ↔ p ∧ b = a

namespace Gives

variable {α β : Type} {o : Option α} {p q : Prop} {a : α}

theorem some (a : α) : Gives (some a) True a := by
  intro b
  rw [Option.some.injEq, true_and]
  exact eq_comm

theorem congr (h : Gives o p a) (hpq : p ↔ q) : Gives o q a := by
  intro b
  rw [h b, hpq]

theorem bind {f : α → Option β} {b : β} (h : Gives o p a) (hf : Gives (f a) q b) :
    Gives (o.bind f) (p ∧ q) b := by
  intro c
  rw [Option.bind_eq_some_iff]
  constructor
  · rintro ⟨a', ha, hc⟩
    obtain ⟨hp, rfl⟩ := (h a').1 ha
    obtain ⟨hq, rfl⟩ := (hf c).1 hc
    exact ⟨⟨hp, hq⟩, rfl⟩
  · rintro ⟨⟨hp, hq⟩, rfl⟩
    exact ⟨a, (h a).2 ⟨hp, rfl⟩, (hf c).2 ⟨hq, rfl⟩⟩

theorem map (h : Gives o p a) (f : α → β) : Gives (o.map f) p (f a) := by
  rw [Option.map_eq_bind]
  exact (h.bind (some (f a))).congr (iff_of_eq (and_true p))

theorem none (a : α) (hp : ¬p) : Gives .none p a :=
  fun _ => ⟨nofun, fun h => absurd h.1 hp⟩

end Gives

/-- With room below a limit a decoder takes a document if there is room for its nesting and a
condition holds, and it makes one value of it. -/
def Decodes {α : Type} (d : Decoder α) (limit : Nat) (j : Json) (p : Prop) (a : α) : Prop :=
  ∀ room < limit, Gives (d room j) (j.nesting ≤ room ∧ p) a

/-- The same for documents that lie side by side. -/
def DecodesItems {α : Type} (d : Decoder α) (limit : Nat) (js : List Json) (p : Prop)
    (as : List α) : Prop :=
  ∀ room < limit, Gives (js.mapM (d room)) (nestingItems js ≤ room ∧ p) as

section Rules

variable {α : Type} {d : Decoder α} {limit : Nat} {j : Json} {p q : Prop} {a : α}

theorem Decodes.congr (h : Decodes d limit j p a) (hpq : p ↔ q) : Decodes d limit j q a :=
  fun room hroom => (h room hroom).congr (and_congr_right_iff.2 fun _ => hpq)

theorem DecodesItems.congr {js : List Json} {as : List α} (h : DecodesItems d limit js p as)
    (hpq : p ↔ q) : DecodesItems d limit js q as :=
  fun room hroom => (h room hroom).congr (and_congr_right_iff.2 fun _ => hpq)

theorem DecodesItems.nil : DecodesItems d limit [] True [] := by
  intro room _
  exact (Gives.some []).congr (by simp [nestingItems])

theorem DecodesItems.cons {js : List Json} {as : List α} (h : Decodes d limit j p a)
    (hs : DecodesItems d limit js q as) : DecodesItems d limit (j :: js) (p ∧ q) (a :: as) := by
  intro room hroom
  rw [List.mapM_cons]
  refine ((h room hroom).bind ((hs room hroom).bind (Gives.some (a :: as)))).congr ?_
  rw [nestingItems, Nat.max_le]
  tauto

/-- One level of room is taken before what lies inside is decoded. -/
theorem gives_deeper {o : Nat → Option α} {depth : Nat} (hzero : o 0 = none)
    (h : ∀ room, room + 1 < limit → Gives (o (room + 1)) (depth ≤ room ∧ p) a) :
    ∀ room < limit, Gives (o room) (depth + 1 ≤ room ∧ p) a := by
  intro room hroom
  cases room with
  | zero =>
    rw [hzero]
    exact Gives.none a fun h => Nat.not_succ_le_zero _ h.1
  | succ room =>
    refine (h room hroom).congr ?_
    rw [Nat.add_le_add_iff_right]

theorem DecodesItems.list {js : List Json} {as : List α} (h : DecodesItems d limit js p as) :
    Decodes (Decoder.list d) limit (.array js) p as :=
  gives_deeper (o := fun room => Decoder.list d room (.array js)) rfl
    fun room hroom => h room (Nat.lt_of_succ_lt hroom)

theorem member?_of_mem {members : List (String × Json)} (hnodup : (members.map Prod.fst).Nodup)
    {m : String × Json} (hm : m ∈ members) :
    Decoder.member? members m.1 = some (some m.2) := by
  have hfilter : members.filter (fun n => n.1 == m.1) = [m] := by
    induction members with
    | nil => cases hm
    | cons n ms ih =>
      rw [List.map_cons, List.nodup_cons] at hnodup
      rcases List.mem_cons.1 hm with rfl | hmem
      · have hnone : ms.filter (fun n => n.1 == m.1) = [] := by
          rw [List.filter_eq_nil_iff]
          intro n hn heq
          exact hnodup.1 (eq_of_beq heq ▸ List.mem_map_of_mem hn)
        rw [List.filter_cons, if_pos (beq_self_eq_true m.1), hnone]
      · have hne : ¬(n.1 == m.1) = true := by
          intro heq
          exact hnodup.1 (eq_of_beq heq ▸ List.mem_map_of_mem hmem)
        rw [List.filter_cons, if_neg hne]
        exact ih hnodup.2 hmem
  rw [Decoder.member?, hfilter]

theorem mapM_eq_some_map {β : Type} {f : β → Option α} {g : β → α} {xs : List β}
    (h : ∀ x ∈ xs, f x = some (g x)) : xs.mapM f = some (xs.map g) := by
  induction xs with
  | nil => rfl
  | cons x xs ih =>
    rw [List.mapM_cons, h x List.mem_cons_self, ih fun y hy => h y (List.mem_cons_of_mem _ hy)]
    rfl

/-- A record with its fields as members, which has one level more than they. -/
theorem Decodes.fields_succ {names : List String}
    {build : Nat → List (Option Json) → Option α} {members : List (String × Json)}
    (hnames : members.map Prod.fst = names) (hnodup : names.Nodup)
    (hbuild : ∀ room < limit, Gives (build room (members.map fun m => some m.2))
      (nestingMembers members ≤ room ∧ p) a) :
    Decodes (Decoder.fields names build) (limit + 1) (.object members) p a := by
  have hfound : names.mapM (Decoder.member? members) = some (members.map fun m => some m.2) := by
    subst hnames
    rw [List.mapM_map]
    exact mapM_eq_some_map fun m hm => member?_of_mem hnodup hm
  refine gives_deeper (o := fun room => Decoder.fields names build room (.object members)) rfl
    fun room hroom => ?_
  rw [Decoder.fields, hfound]
  exact hbuild room (Nat.lt_of_succ_lt_succ hroom)

theorem Decodes.fields {names : List String} {build : Nat → List (Option Json) → Option α}
    {members : List (String × Json)} (hnames : members.map Prod.fst = names)
    (hnodup : names.Nodup)
    (hbuild : ∀ room < limit, Gives (build room (members.map fun m => some m.2))
      (nestingMembers members ≤ room ∧ p) a) :
    Decodes (Decoder.fields names build) limit (.object members) p a :=
  fun room hroom => fields_succ hnames hnodup hbuild room (Nat.lt_succ_of_lt hroom)

theorem Decodes.variant {build : String → Nat → Json → Option α} (name : String)
    (h : Decodes (build name) limit j p a) :
    Decodes (Decoder.variant build) limit (.object [(name, j)]) p a := by
  refine gives_deeper (o := fun room => Decoder.variant build room (.object [(name, j)])) rfl
    fun room hroom => (h room (Nat.lt_of_succ_lt hroom)).congr ?_
  rw [nestingMembers, nestingMembers, Nat.max_zero]

/-- A variant without content stands as its bare name. -/
theorem Decodes.bare {build : String → Nat → Json → Option α} {name : String}
    (h : ∀ room, build name room .null = some a) :
    Decodes (Decoder.variant build) limit (.string name) True a := by
  intro room _
  rw [Decoder.variant, h]
  exact (Gives.some a).congr (by simp [nesting])

theorem Decodes.map {β : Type} (h : Decodes d limit j p a) (f : α → β) :
    Decodes (fun room j => (d room j).map f) limit j p (f a) :=
  fun room hroom => (h room hroom).map f

end Rules

section Leaves

variable {limit : Nat}

theorem decodes_string (s : String) : Decodes Decoder.string limit (.string s) True s :=
  fun _ _ => (Gives.some s).congr (by simp [nesting])

theorem decodes_bool (b : Bool) : Decodes Decoder.bool limit (.bool b) True b :=
  fun _ _ => (Gives.some b).congr (by simp [nesting])

theorem decodes_natBelow {bound n : Nat} (h : n < bound) :
    Decodes (Decoder.natBelow bound) limit (.nat n) True n := by
  intro room _
  have hn : (0 : Int) ≤ n ∧ (n : Int) < bound := ⟨Int.natCast_nonneg n, Int.ofNat_lt.2 h⟩
  rw [Json.nat, Decoder.natBelow, if_pos hn]
  exact (Gives.some n).congr (by simp [nesting])

theorem decodes_double (x : Float) :
    Decodes Decoder.double limit (readNumberJson x) (readBack? x).isSome (readBack x) := by
  intro room _
  have hroom : ∀ j, Decoder.double room j = Decoder.double 0 j := by
    intro j
    cases j <;> rfl
  rw [hroom, ← readBack?, nesting_readNumberJson, readBack]
  cases readBack? x with
  | none => exact Gives.none _ fun h => Bool.false_ne_true h.2
  | some y => exact (Gives.some y).congr (by simp)

theorem Position.FitsWord.decodes {p : Position} (h : p.FitsWord) :
    Decodes Position.decode limit p.toJson True p := by
  refine .fields rfl (by decide) fun room hroom => ?_
  have hoffset := decodes_natBelow h.offset room hroom
  have hline := decodes_natBelow h.line room hroom
  have hcolumn := decodes_natBelow h.column room hroom
  refine Gives.congr (.bind hoffset (.bind hline (.bind hcolumn (.some p)))) ?_
  simp only [nestingMembers, Nat.max_le, Nat.zero_le]
  tauto

theorem Span.FitsWord.decodes {s : Span} (h : s.FitsWord) :
    Decodes Span.decode limit s.toJson True s := by
  refine .fields rfl (by decide) fun room hroom => ?_
  have hstart := h.start.decodes room hroom
  have hstop := h.stop.decodes room hroom
  refine Gives.congr (.bind hstart (.bind hstop (.some s))) ?_
  simp only [nestingMembers, Nat.max_le, Nat.zero_le]
  tauto

theorem Name.decodes {n : Name} (h : n.span.FitsWord) :
    Decodes Name.decode limit n.toJson True n := by
  refine .fields rfl (by decide) fun room hroom => ?_
  have htext := decodes_string n.text room hroom
  have hspan := h.decodes room hroom
  refine Gives.congr (.bind htext (.bind hspan (.some n))) ?_
  simp only [nestingMembers, Nat.max_le, Nat.zero_le]
  tauto

theorem Name.decodesItems {ns : List Name}
    (h : ∀ s ∈ ns.flatMap (fun n => [n.span]), s.FitsWord) :
    DecodesItems Name.decode limit (ns.map Name.toJson) True ns := by
  induction ns with
  | nil => exact .nil
  | cons n ns ih =>
    simp only [List.flatMap_cons, List.singleton_append, List.forall_mem_cons] at h
    exact (DecodesItems.cons (Name.decodes h.1) (ih h.2)).congr (iff_of_eq (true_and True))

theorem UnaryOp.decodes (op : UnaryOp) : Decodes decode limit (.string op.tag) True op :=
  .bare fun _ => by cases op <;> rfl

theorem BinaryOp.decodes (op : BinaryOp) : Decodes decode limit (.string op.tag) True op :=
  .bare fun _ => by cases op <;> rfl

theorem LogicalOp.decodes (op : LogicalOp) : Decodes decode limit (.string op.tag) True op :=
  .bare fun _ => by cases op <;> rfl

theorem Literal.decodes (l : Literal) :
    Decodes Literal.decode limit (l.toJson readNumberJson)
      (∀ x ∈ l.collect ([·]), (readBack? x).isSome) (l.mapNumbers readBack) := by
  have hnone : (∀ x ∈ ([] : List Float), (readBack? x).isSome = true) ↔ True :=
    iff_true_intro (List.forall_mem_nil _)
  cases l with
  | number x =>
    have hone : (∀ y ∈ [x], (readBack? y).isSome = true) ↔ (readBack? x).isSome = true :=
      List.forall_mem_singleton
    have hdouble : Decodes _ limit _ _ _ := (decodes_double x).map Literal.number
    exact Decodes.congr (.variant "number" hdouble) hone.symm
  | string s =>
    have hstring : Decodes _ limit _ _ _ := (decodes_string s).map Literal.string
    exact Decodes.congr (.variant "string" hstring) hnone.symm
  | boolean b =>
    have hbool : Decodes _ limit _ _ _ := (decodes_bool b).map Literal.boolean
    exact Decodes.congr (.variant "boolean" hbool) hnone.symm
  | null => exact Decodes.congr (.bare fun _ => rfl) hnone.symm

theorem Key.decodes {k : Key} (h : ∀ s ∈ k.collect ([·]) fun _ => [], s.FitsWord) :
    Decodes Key.decode limit (k.toJson readNumberJson)
      (∀ x ∈ k.collect (fun _ => []) ([·]), (readBack? x).isSome) (k.mapNumbers readBack) := by
  cases k with
  | name id =>
    have hnone : (∀ x ∈ ([] : List Float), (readBack? x).isSome = true) ↔ True :=
      iff_true_intro (List.forall_mem_nil _)
    have hid : Decodes _ limit _ _ _ := (Name.decodes (h _ List.mem_cons_self)).map Key.name
    exact Decodes.congr (.variant "identifier" hid) hnone.symm
  | literal l span =>
    have hspan : span.FitsWord := h span (List.mem_append_right _ List.mem_cons_self)
    refine Decodes.variant "literal" (gives_deeper rfl fun room hroom => ?_)
    have hroom : room < limit := Nat.lt_of_succ_lt hroom
    refine Gives.congr (.bind (l.decodes room hroom)
      (.bind (hspan.decodes room hroom) (.some _))) ?_
    simp only [collect, List.append_nil, nestingItems, Nat.max_le, Nat.zero_le]
    tauto

end Leaves

namespace Expr

section Nodes

variable {child : Decoder Expr} {limit : Nat} {j k l : Json} {p q r : Prop} {e f g : Expr}

theorem decodes_unary (op : UnaryOp) (hj : Decodes child limit j p e) :
    Decodes (decodeUnary child) limit (.object [("op", .string op.tag), ("argument", j)]) p
      fun span => .unary span op e := by
  refine .fields rfl (by decide) fun room hroom => ?_
  have hop := op.decodes room hroom
  refine Gives.congr (.bind hop (.bind (hj room hroom) (.some _))) ?_
  simp only [nestingMembers, Nat.max_le, Nat.zero_le]
  tauto

theorem decodes_binary (op : BinaryOp) (hj : Decodes child limit j p e)
    (hk : Decodes child limit k q f) :
    Decodes (decodeBinary child) limit (.object [("op", .string op.tag), ("left", j), ("right", k)])
      (p ∧ q) fun span => .binary span op e f := by
  refine .fields rfl (by decide) fun room hroom => ?_
  have hop := op.decodes room hroom
  refine Gives.congr (.bind hop (.bind (hj room hroom) (.bind (hk room hroom) (.some _)))) ?_
  simp only [nestingMembers, Nat.max_le, Nat.zero_le]
  tauto

theorem decodes_logical (op : LogicalOp) (hj : Decodes child limit j p e)
    (hk : Decodes child limit k q f) :
    Decodes (decodeLogical child) limit
      (.object [("op", .string op.tag), ("left", j), ("right", k)])
      (p ∧ q) fun span => .logical span op e f := by
  refine .fields rfl (by decide) fun room hroom => ?_
  have hop := op.decodes room hroom
  refine Gives.congr (.bind hop (.bind (hj room hroom) (.bind (hk room hroom) (.some _)))) ?_
  simp only [nestingMembers, Nat.max_le, Nat.zero_le]
  tauto

theorem decodes_coalesce (hj : Decodes child limit j p e) (hk : Decodes child limit k q f) :
    Decodes (decodeCoalesce child) limit (.object [("left", j), ("right", k)]) (p ∧ q)
      fun span => .coalesce span e f := by
  refine .fields rfl (by decide) fun room hroom => ?_
  refine Gives.congr (.bind (hj room hroom) (.bind (hk room hroom) (.some _))) ?_
  simp only [nestingMembers, Nat.max_le, Nat.zero_le]
  tauto

theorem decodes_conditional {alternate : Option Expr} (hj : Decodes child limit j p e)
    (hk : Decodes child limit k q f) (hl : Decodes (Decoder.nullable child) limit l r alternate) :
    Decodes (decodeConditional child) limit
      (.object [("test", j), ("consequent", k), ("alternate", l)])
      (p ∧ q ∧ r) fun span => .conditional span e f alternate := by
  refine .fields rfl (by decide) fun room hroom => ?_
  refine Gives.congr (.bind (hj room hroom) (.bind (hk room hroom)
    (.bind (hl room hroom) (.some _)))) ?_
  simp only [nestingMembers, Nat.max_le, Nat.zero_le]
  tauto

theorem decodes_member {computed extended : Bool} (hj : Decodes child limit j p e)
    (hk : Decodes child limit k q f) :
    Decodes (decodeMember child) limit
      (.object [("object", j), ("property", k), ("computed", .bool computed),
        ("extension", .bool extended)])
      (p ∧ q) fun span => .member span e f computed extended := by
  refine .fields rfl (by decide) fun room hroom => ?_
  have hcomputed := decodes_bool computed room hroom
  have hextended := decodes_bool extended room hroom
  refine Gives.congr (.bind (hj room hroom) (.bind (hk room hroom)
    (.bind hcomputed (.bind hextended (.some _))))) ?_
  simp only [nestingMembers, Nat.max_le, Nat.zero_le]
  tauto

theorem decodes_call {js : List Json} {as : List (Argument Expr)}
    (hj : Decodes child limit j p e)
    (hjs : DecodesItems (decodeArgument child) limit js q as) :
    Decodes (decodeCall child) limit (.object [("callee", j), ("arguments", .array js)]) (p ∧ q)
      fun span => .call span e as := by
  refine .fields rfl (by decide) fun room hroom => ?_
  refine Gives.congr (.bind (hj room hroom) (.bind (hjs.list room hroom) (.some _))) ?_
  simp only [nestingMembers, Nat.max_le, Nat.zero_le]
  tauto

theorem decodes_pipe {js : List Json} {ss : List (Stage Expr)} (hj : Decodes child limit j p e)
    (hjs : DecodesItems (decodeStage child) limit js q ss) :
    Decodes (decodePipe child) limit (.object [("head", j), ("tail", .array js)]) (p ∧ q)
      fun span => .pipe span e ss := by
  refine .fields rfl (by decide) fun room hroom => ?_
  refine Gives.congr (.bind (hj room hroom) (.bind (hjs.list room hroom) (.some _))) ?_
  simp only [nestingMembers, Nat.max_le, Nat.zero_le]
  tauto

theorem decodes_lambda {ns : List Name} (hns : ∀ s ∈ ns.flatMap (fun n => [n.span]), s.FitsWord)
    (hj : Decodes child limit j p e) :
    Decodes (decodeLambda child) limit
      (.object [("params", .array (ns.map Name.toJson)), ("body", j)]) p
      fun span => .lambda span ns e := by
  refine .fields rfl (by decide) fun room hroom => ?_
  have hnames := (Name.decodesItems hns).list room hroom
  refine Gives.congr (.bind hnames (.bind (hj room hroom) (.some _))) ?_
  simp only [nestingMembers, Nat.max_le, Nat.zero_le]
  tauto

theorem decodes_letIn {js : List Json} {ds : List (Declaration Expr)}
    (hjs : DecodesItems (decodeDeclaration child) limit js p ds) (hj : Decodes child limit j q e) :
    Decodes (decodeLet child) limit (.object [("declarations", .array js), ("body", j)]) (p ∧ q)
      fun span => .letIn span ds e := by
  refine .fields rfl (by decide) fun room hroom => ?_
  refine Gives.congr (.bind (hjs.list room hroom) (.bind (hj room hroom) (.some _))) ?_
  simp only [nestingMembers, Nat.max_le, Nat.zero_le]
  tauto

theorem decodes_property {key : Key} {span : Span} (hspan : span.FitsWord)
    (hk : Decodes Key.decode limit k q key) (hj : Decodes child limit j p e) :
    Decodes (decodeProperty child) limit
      (.object [("key", k), ("value", j), ("span", span.toJson)]) (q ∧ p) ⟨key, e, span⟩ := by
  refine .fields rfl (by decide) fun room hroom => ?_
  refine Gives.congr (.bind (hk room hroom) (.bind (hj room hroom)
    (.bind (hspan.decodes room hroom) (.some _)))) ?_
  simp only [nestingMembers, Nat.max_le, Nat.zero_le]
  tauto

theorem decodes_value (hj : Decodes child limit j p e) :
    Decodes (decodeArgument child) limit (.object [("expr", j)]) p (.value e) := by
  have hvalue : Decodes _ limit _ _ _ := hj.map Argument.value
  exact .variant "expr" hvalue

theorem decodes_placeholder {span : Span} (hspan : span.FitsWord) :
    Decodes (decodeArgument child) limit (.object [("placeholder", span.toJson)]) True
      (.placeholder span) := by
  have hplaceholder : Decodes _ limit _ _ _ :=
    (Span.FitsWord.decodes hspan).map (Argument.placeholder (ε := Expr))
  exact .variant "placeholder" hplaceholder

theorem decodes_stage {optional : Bool} (hj : Decodes child limit j p e) :
    Decodes (decodeStage child) limit (.object [("optional", .bool optional), ("expr", j)]) p
      ⟨optional, e⟩ := by
  refine .fields rfl (by decide) fun room hroom => ?_
  have hoptional := decodes_bool optional room hroom
  refine Gives.congr (.bind hoptional (.bind (hj room hroom) (.some _))) ?_
  simp only [nestingMembers, Nat.max_le, Nat.zero_le]
  tauto

theorem decodes_declaration {name : Name} {span : Span} (hname : name.span.FitsWord)
    (hspan : span.FitsWord) (hj : Decodes child limit j p e) :
    Decodes (decodeDeclaration child) limit
      (.object [("id", name.toJson), ("init", j), ("span", span.toJson)]) p
      ⟨name, e, span⟩ := by
  refine .fields rfl (by decide) fun room hroom => ?_
  have hid := Name.decodes hname room hroom
  refine Gives.congr (.bind hid (.bind (hj room hroom)
    (.bind (hspan.decodes room hroom) (.some _)))) ?_
  simp only [nestingMembers, Nat.max_le, Nat.zero_le]
  tauto

theorem decodes_node {kind : Json} {span : Span} {build : Span → Expr} (hspan : span.FitsWord)
    (hkind : ∀ n, Decodes (decodeKind (decode n)) n kind p build) (n : Nat) :
    Decodes (decode n) n (node kind span) p (build span) := by
  cases n with
  | zero => exact fun _ hroom => absurd hroom (Nat.not_lt_zero _)
  | succ n =>
    refine Decodes.fields_succ rfl (by decide) fun room hroom => ?_
    refine Gives.congr (.bind (hkind n room hroom) (.bind (hspan.decodes room hroom) (.some _))) ?_
    simp only [nestingMembers, Nat.max_le, Nat.zero_le]
    tauto

end Nodes

theorem exists_node (number : Float → Json) (e : Expr) :
    ∃ kind span, e.toJsonWith number = node kind span := by
  cases e <;> exact ⟨_, _, rfl⟩

mutual

theorem decodes_tree : ∀ (e : Expr), (∀ s ∈ e.spans, s.FitsWord) → ∀ n,
    Decodes (decode n) n (e.toJsonWith readNumberJson) (∀ x ∈ e.numbers, (readBack? x).isSome)
      (e.mapNumbers readBack)
  | .literal span l, h => by
    simp only [spans, collect, List.forall_mem_append, List.forall_mem_singleton] at h
    simp only [toJsonWith, mapNumbers, numbers, collect, List.append_nil]
    have hl : ∀ n, Decodes _ n _ _ _ := fun _ => l.decodes.map fun l span => Expr.literal span l
    exact decodes_node h.2 fun n => .variant "literal" (hl n)
  | .identifier span name, h => by
    have hname : ∀ n, Decodes _ n _ _ _ :=
      fun n => (decodes_string name).map fun s span => Expr.identifier span s
    have hspan : span.FitsWord := h span List.mem_cons_self
    exact fun n => (decodes_node hspan (fun n => .variant "identifier" (hname n)) n).congr
      (iff_true_intro (List.forall_mem_nil _)).symm
  | .topic span, h => fun n =>
    (decodes_node (h span List.mem_cons_self) (fun _ => .bare fun _ => rfl) n).congr
      (iff_true_intro (List.forall_mem_nil _)).symm
  | .unary span op argument, h => by
    simp only [spans, collect, List.forall_mem_append, List.forall_mem_singleton] at h
    simp only [toJsonWith, mapNumbers, numbers, collect, List.append_nil]
    exact decodes_node h.2 fun n => .variant "unary"
      (decodes_unary op (decodes_tree argument h.1 n))
  | .binary span op left right, h => by
    simp only [spans, collect, List.forall_mem_append, List.forall_mem_singleton] at h
    simp only [toJsonWith, mapNumbers, numbers, collect, List.append_nil, List.forall_mem_append]
    exact decodes_node h.2 fun n => .variant "binary"
      (decodes_binary op (decodes_tree left h.1.1 n) (decodes_tree right h.1.2 n))
  | .logical span op left right, h => by
    simp only [spans, collect, List.forall_mem_append, List.forall_mem_singleton] at h
    simp only [toJsonWith, mapNumbers, numbers, collect, List.append_nil, List.forall_mem_append]
    exact decodes_node h.2 fun n => .variant "logical"
      (decodes_logical op (decodes_tree left h.1.1 n) (decodes_tree right h.1.2 n))
  | .coalesce span left right, h => by
    simp only [spans, collect, List.forall_mem_append, List.forall_mem_singleton] at h
    simp only [toJsonWith, mapNumbers, numbers, collect, List.append_nil, List.forall_mem_append]
    exact decodes_node h.2 fun n => .variant "nullish_coalesce"
      (decodes_coalesce (decodes_tree left h.1.1 n) (decodes_tree right h.1.2 n))
  | .conditional span test consequent alternate, h => by
    simp only [spans, collect, List.forall_mem_append, List.forall_mem_singleton] at h
    simp only [toJsonWith, mapNumbers, numbers, collect, List.append_nil, List.forall_mem_append,
      and_assoc]
    exact decodes_node h.2 fun n => .variant "conditional"
      (decodes_conditional (decodes_tree test h.1.1.1 n) (decodes_tree consequent h.1.1.2 n)
        (decodes_option alternate h.1.2 n))
  | .object span properties, h => by
    simp only [spans, collect, List.forall_mem_append, List.forall_mem_singleton] at h
    simp only [toJsonWith, mapNumbers, numbers, collect, List.append_nil]
    have hps : ∀ n, Decodes _ n _ _ _ := fun n =>
      (decodes_properties properties h.1 n).list.map fun ps span => Expr.object span ps
    exact decodes_node h.2 fun n => .variant "object" (hps n)
  | .array span elements, h => by
    simp only [spans, collect, List.forall_mem_append, List.forall_mem_singleton] at h
    simp only [toJsonWith, mapNumbers, numbers, collect, List.append_nil]
    have hes : ∀ n, Decodes _ n _ _ _ := fun n =>
      (decodes_elements elements h.1 n).list.map fun es span => Expr.array span es
    exact decodes_node h.2 fun n => .variant "array" (hes n)
  | .member span target key computed extended, h => by
    simp only [spans, collect, List.forall_mem_append, List.forall_mem_singleton] at h
    simp only [toJsonWith, mapNumbers, numbers, collect, List.append_nil, List.forall_mem_append]
    exact decodes_node h.2 fun n => .variant "member"
      (decodes_member (decodes_tree target h.1.1 n) (decodes_tree key h.1.2 n))
  | .call span callee arguments, h => by
    simp only [spans, collect, List.forall_mem_append, List.forall_mem_singleton] at h
    simp only [toJsonWith, mapNumbers, numbers, collect, List.append_nil, List.forall_mem_append]
    exact decodes_node h.2 fun n => .variant "call"
      (decodes_call (decodes_tree callee h.1.1 n) (decodes_arguments arguments h.1.2 n))
  | .pipe span head stages, h => by
    simp only [spans, collect, List.forall_mem_append, List.forall_mem_singleton] at h
    simp only [toJsonWith, mapNumbers, numbers, collect, List.append_nil, List.forall_mem_append]
    exact decodes_node h.2 fun n => .variant "pipe_sequence"
      (decodes_pipe (decodes_tree head h.1.1 n) (decodes_stages stages h.1.2 n))
  | .lambda span parameters body, h => by
    simp only [spans, collect, List.forall_mem_append, List.forall_mem_singleton] at h
    have hnone : parameters.flatMap (fun _ => ([] : List Float)) = [] :=
      List.flatMap_eq_nil_iff.2 fun _ _ => rfl
    simp only [toJsonWith, mapNumbers, numbers, collect, List.append_nil, hnone, List.nil_append]
    exact decodes_node h.2 fun n => .variant "lambda"
      (decodes_lambda h.1.1 (decodes_tree body h.1.2 n))
  | .letIn span declarations body, h => by
    simp only [spans, collect, List.forall_mem_append, List.forall_mem_singleton] at h
    simp only [toJsonWith, mapNumbers, numbers, collect, List.append_nil, List.forall_mem_append]
    exact decodes_node h.2 fun n => .variant "let"
      (decodes_letIn (decodes_declarations declarations h.1.1 n) (decodes_tree body h.1.2 n))

theorem decodes_option : ∀ (e : Option Expr),
    (∀ s ∈ collectOption ([·]) (fun _ => []) e, s.FitsWord) → ∀ n,
    Decodes (Decoder.nullable (decode n)) n (optionJson readNumberJson e)
      (∀ x ∈ collectOption (fun _ => []) ([·]) e, (readBack? x).isSome) (mapOption readBack e)
  | none, _ => fun _ _ _ =>
    (Gives.some none).congr (by simp [optionJson, collectOption, nesting])
  | some e, h => fun n => by
    have he := decodes_tree e h n
    obtain ⟨kind, span, hnode⟩ := exists_node readNumberJson e
    rw [optionJson, hnode]
    rw [hnode] at he
    exact he.map some

theorem decodes_properties : ∀ (ps : List (Property Expr)),
    (∀ s ∈ collectProperties ([·]) (fun _ => []) ps, s.FitsWord) → ∀ n,
    DecodesItems (decodeProperty (decode n)) n (propertiesJson readNumberJson ps)
      (∀ x ∈ collectProperties (fun _ => []) ([·]) ps, (readBack? x).isSome)
      (mapProperties readBack ps)
  | [], _ => fun _ => DecodesItems.nil.congr (iff_true_intro (List.forall_mem_nil _)).symm
  | ⟨key, value, span⟩ :: ps, h => fun n => by
    simp only [collectProperties, List.forall_mem_append, List.forall_mem_singleton] at h
    simp only [collectProperties, List.append_nil, List.forall_mem_append]
    exact .cons (decodes_property h.1.2 (Key.decodes h.1.1.1) (decodes_tree value h.1.1.2 n))
      (decodes_properties ps h.2 n)

theorem decodes_elements : ∀ (es : List (Option Expr)),
    (∀ s ∈ collectElements ([·]) (fun _ => []) es, s.FitsWord) → ∀ n,
    DecodesItems (Decoder.nullable (decode n)) n (elementsJson readNumberJson es)
      (∀ x ∈ collectElements (fun _ => []) ([·]) es, (readBack? x).isSome)
      (mapElements readBack es)
  | [], _ => fun _ => DecodesItems.nil.congr (iff_true_intro (List.forall_mem_nil _)).symm
  | e :: es, h => fun n => by
    simp only [collectElements, List.forall_mem_append] at h ⊢
    exact .cons (decodes_option e h.1 n) (decodes_elements es h.2 n)

theorem decodes_arguments : ∀ (as : List (Argument Expr)),
    (∀ s ∈ collectArguments ([·]) (fun _ => []) as, s.FitsWord) → ∀ n,
    DecodesItems (decodeArgument (decode n)) n (argumentsJson readNumberJson as)
      (∀ x ∈ collectArguments (fun _ => []) ([·]) as, (readBack? x).isSome)
      (mapArguments readBack as)
  | [], _ => fun _ => DecodesItems.nil.congr (iff_true_intro (List.forall_mem_nil _)).symm
  | .value e :: as, h => fun n => by
    simp only [collectArguments, List.forall_mem_append] at h ⊢
    exact .cons (decodes_value (decodes_tree e h.1 n)) (decodes_arguments as h.2 n)
  | .placeholder span :: as, h => fun n => by
    simp only [collectArguments, List.forall_mem_append, List.forall_mem_singleton] at h
    exact (DecodesItems.cons (decodes_placeholder h.1) (decodes_arguments as h.2 n)).congr
      (iff_of_eq (true_and _))

theorem decodes_stages : ∀ (ss : List (Stage Expr)),
    (∀ s ∈ collectStages ([·]) (fun _ => []) ss, s.FitsWord) → ∀ n,
    DecodesItems (decodeStage (decode n)) n (stagesJson readNumberJson ss)
      (∀ x ∈ collectStages (fun _ => []) ([·]) ss, (readBack? x).isSome) (mapStages readBack ss)
  | [], _ => fun _ => DecodesItems.nil.congr (iff_true_intro (List.forall_mem_nil _)).symm
  | ⟨_, body⟩ :: ss, h => fun n => by
    simp only [collectStages, List.forall_mem_append] at h ⊢
    exact .cons (decodes_stage (decodes_tree body h.1 n)) (decodes_stages ss h.2 n)

theorem decodes_declarations : ∀ (ds : List (Declaration Expr)),
    (∀ s ∈ collectDeclarations ([·]) (fun _ => []) ds, s.FitsWord) → ∀ n,
    DecodesItems (decodeDeclaration (decode n)) n (declarationsJson readNumberJson ds)
      (∀ x ∈ collectDeclarations (fun _ => []) ([·]) ds, (readBack? x).isSome)
      (mapDeclarations readBack ds)
  | [], _ => fun _ => DecodesItems.nil.congr (iff_true_intro (List.forall_mem_nil _)).symm
  | ⟨name, init, span⟩ :: ds, h => fun n => by
    simp only [collectDeclarations, List.forall_mem_append, List.forall_mem_singleton] at h
    simp only [collectDeclarations, List.append_nil, List.nil_append, List.forall_mem_append]
    exact .cons (decodes_declaration h.1.1.1 h.1.2 (decodes_tree init h.1.1.2 n))
      (decodes_declarations ds h.2 n)

end

end Expr

end ExprLang
