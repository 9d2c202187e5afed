import ExprLang.Proofs.Parsing.Makes

/-!
Spans nest. Every node of a parsed tree begins and ends with tokens, what belongs to it lies inside
it, and its children lie one after another.
-/
namespace ExprLang

variable {α : Type}

namespace Span

def Contains (a b : Span) : Prop :=
  a.start.offset ≤ b.start.offset ∧ b.stop.offset ≤ a.stop.offset

/-- The span begins with one of the tokens and ends with one. -/
def Within (span : Span) (us : List Sign) : Prop :=
  (∃ u ∈ us, u.token.span.start = span.start) ∧ ∃ u ∈ us, u.token.span.stop = span.stop

variable {a b : Span} {us vs : List Sign}

theorem Within.mono (h : a.Within us) (hsub : us ⊆ vs) : a.Within vs := by
  obtain ⟨⟨u, hu, hstart⟩, v, hv, hstop⟩ := h
  exact ⟨⟨u, hsub hu, hstart⟩, v, hsub hv, hstop⟩

theorem Within.merge (ha : a.Within us) (hb : b.Within us) : (a.merge b).Within us := by
  unfold Span.merge
  constructor
  · dsimp only
    split
    · exact hb.1
    · exact ha.1
  · dsimp only
    split
    · exact hb.2
    · exact ha.2

theorem Covers.within (h : a.Covers us) : a.Within us := by
  obtain ⟨u, hu, hstart⟩ := Option.map_eq_some_iff.1 h.start_eq
  obtain ⟨v, hv, hstop⟩ := Option.map_eq_some_iff.1 h.stop_eq
  exact ⟨⟨u, List.mem_of_head? hu, hstart⟩, v, List.mem_of_getLast? hv, hstop⟩

theorem within_part (kind : TokenKind) (h : .part kind a ∈ us) : a.Within us :=
  ⟨⟨_, h, rfl⟩, _, h, rfl⟩

end Span

/-- Tokens as they lie in a text. -/
structure Ordered (us : List Sign) : Prop where
  pairwise : us.Pairwise fun u v => u.token.span.stop.offset ≤ v.token.span.start.offset
  nonempty : ∀ u ∈ us, u.token.span.start.offset < u.token.span.stop.offset

namespace Ordered

variable {us vs : List Sign} {u : Sign} {span a : Span}

theorem sublist (h : Ordered us) (hsub : vs.Sublist us) : Ordered vs :=
  ⟨h.pairwise.sublist hsub, fun u hu => h.nonempty u (hsub.subset hu)⟩

theorem start_le (h : Ordered us) (hspan : span.Covers us) (hu : u ∈ us) :
    span.start.offset ≤ u.token.span.start.offset := by
  obtain ⟨v, hv, hstart⟩ := Option.map_eq_some_iff.1 hspan.start_eq
  obtain ⟨vs, rfl⟩ := List.head?_eq_some_iff.1 hv
  rw [← hstart]
  rcases List.mem_cons.1 hu with rfl | hu
  · exact Nat.le_refl _
  · exact (h.nonempty v List.mem_cons_self).le.trans ((List.pairwise_cons.1 h.pairwise).1 u hu)

theorem le_stop (h : Ordered us) (hspan : span.Covers us) (hu : u ∈ us) :
    u.token.span.stop.offset ≤ span.stop.offset := by
  obtain ⟨v, hv, hstop⟩ := Option.map_eq_some_iff.1 hspan.stop_eq
  obtain ⟨vs, rfl⟩ := List.getLast?_eq_some_iff.1 hv
  rw [← hstop]
  rcases List.mem_append.1 hu with hu | hu
  · have hle := (List.pairwise_append.1 h.pairwise).2.2 u hu v (List.mem_singleton_self v)
    exact hle.trans (h.nonempty v (by simp)).le
  · exact List.mem_singleton.1 hu ▸ Nat.le_refl _

theorem contains (h : Ordered us) (hspan : span.Covers us) (ha : a.Within us) :
    span.Contains a := by
  obtain ⟨⟨u, hu, hstart⟩, v, hv, hstop⟩ := ha
  exact ⟨hstart ▸ h.start_le hspan hu, hstop ▸ h.le_stop hspan hv⟩

end Ordered

/-- The tokens spell the tree, or are the one that an access has for a name, which may be a
keyword. -/
inductive Fits : List Sign → Expr → Prop
  | spells {us : List Sign} {e : Expr} (h : Spells us e) : Fits us e
  | name {kind : TokenKind} {name : String} (span : Span) (hname : kind.Names name) :
    Fits [.part kind span] (.identifier span name)

/-- Trees that fit runs of the tokens, one after another. -/
inductive Rows : List Sign → List Expr → Prop
  | nil (us : List Sign) : Rows us []
  | cons {bs cs : List Sign} {e : Expr} {es : List Expr} (as : List Sign) (h : Fits bs e)
    (hs : Rows cs es) : Rows (as ++ bs ++ cs) (e :: es)

namespace Rows

variable {us vs : List Sign} {es fs : List Expr} {e : Expr}

theorem append_left (as : List Sign) (h : Rows us es) : Rows (as ++ us) es := by
  cases h with
  | nil => exact .nil _
  | @cons bs cs e es as' h hs =>
    rw [List.append_assoc as', ← List.append_assoc as, ← List.append_assoc]
    exact .cons (as ++ as') h hs

theorem append (h : Rows us es) (h' : Rows vs fs) : Rows (us ++ vs) (es ++ fs) := by
  induction h with
  | nil us => exact h'.append_left us
  | cons as h _ ih =>
    rw [List.append_assoc]
    exact .cons as h ih

theorem append_right (h : Rows us es) (bs : List Sign) : Rows (us ++ bs) es := by
  simpa using h.append (.nil bs)

theorem of_fits (h : Fits us e) : Rows us [e] := by
  simpa using Rows.cons [] h (.nil [])

theorem of_spells (h : Spells us e) : Rows us [e] := .of_fits (.spells h)

theorem of_body {x : Clause α} (h : Spells x.body e) : Rows x.signs [e] :=
  .cons x.before (.spells h) (.nil x.after)

theorem of_body? {x : Clause α} {e : Option Expr} (h : ∀ t, e = some t → Spells x.body t) :
    Rows x.signs e.toList := by
  cases e with
  | none => exact .nil _
  | some t => exact .of_body (h t rfl)

theorem flatMap {cs : List (Clause α)} {f : α → List Expr}
    (h : ∀ x ∈ cs, Rows x.signs (f x.value)) :
    Rows (cs.flatMap (·.signs)) ((cs.map (·.value)).flatMap f) := by
  induction cs with
  | nil => exact .nil _
  | cons x cs ih =>
    obtain ⟨hx, hcs⟩ := List.forall_mem_cons.1 h
    exact hx.append (ih hcs)

theorem listed {cs : List (Clause α)} {f : α → List Expr}
    (h : ∀ x ∈ cs, Rows x.signs (f x.value)) (hlisted : Listed (cs.map (·.signs)) vs) :
    Rows vs ((cs.map (·.value)).flatMap f) := by
  generalize huss : cs.map (·.signs) = uss at hlisted
  induction hlisted generalizing cs with
  | nil =>
    obtain rfl := List.map_eq_nil_iff.1 huss
    exact .nil _
  | last =>
    obtain ⟨x, rfl, rfl⟩ := List.map_eq_singleton_iff.1 huss
    simpa using h
  | trailing =>
    obtain ⟨x, rfl, rfl⟩ := List.map_eq_singleton_iff.1 huss
    simpa using (h x (List.mem_singleton_self x)).append_right _
  | hole a =>
    obtain ⟨x, rfl, hx⟩ := List.map_eq_singleton_iff.1 huss
    have hrows := h x (List.mem_singleton_self x)
    rw [hx] at hrows
    simpa using hrows.append_right [.symbol .comma a]
  | more a _ _ ih =>
    obtain ⟨x, cs, rfl, rfl, hcs⟩ := List.map_eq_cons_iff.1 huss
    obtain ⟨hx, htail⟩ := List.forall_mem_cons.1 h
    exact (hx.append_right _).append (ih htail hcs)

/-- Every tree among the tokens fits a run of them. -/
theorem exists_infix (h : Rows us es) (he : e ∈ es) : ∃ vs, vs <:+: us ∧ Fits vs e := by
  induction h with
  | nil => cases he
  | @cons bs cs _ _ as h _ ih =>
    rcases List.mem_cons.1 he with rfl | he
    · exact ⟨bs, ⟨as, cs, rfl⟩, h⟩
    · obtain ⟨vs, hvs, hfits⟩ := ih he
      exact ⟨vs, hvs.trans (List.suffix_append _ _).isInfix, hfits⟩

end Rows

def Argument.placeholderSpan? : Argument Expr → Option Span
  | .value _ => none
  | .placeholder span => some span

namespace Expr

/-- The spans that belong to a node itself, besides its own and those of its children. -/
def ownSpans : Expr → List Span
  | .object _ properties => properties.flatMap fun p => [p.key.span, p.span]
  | .call _ _ arguments => arguments.filterMap (·.placeholderSpan?)
  | .lambda _ parameters _ => parameters.map (·.span)
  | .letIn _ declarations _ => declarations.flatMap fun d => [d.name.span, d.span]
  | _ => []

/-- How a node lies among the tokens. -/
structure Nests (ts : List Token) (e : Expr) : Prop where
  starts : ∃ t ∈ ts, t.kind ≠ .endOfInput ∧ t.span.start = e.span.start
  stops : ∃ t ∈ ts, t.kind ≠ .endOfInput ∧ t.span.stop = e.span.stop
  nonempty : e.span.start.offset < e.span.stop.offset
  contains : ∀ s ∈ e.children.map span ++ e.ownSpans, e.span.Contains s
  -- Each child ends before the next one begins.
  ordered : (e.children.map span).Pairwise fun a b => a.stop.offset ≤ b.start.offset

end Expr

/-- The tokens of a node without the parentheses around it, and what lies among them. -/
structure Composes (us : List Sign) (e : Expr) : Prop where
  covers : e.span.Covers us
  children : Rows us e.children
  own : ∀ s ∈ e.ownSpans, s.Within us

theorem InfixOp.layout_node (op : InfixOp) (span : Span) (left right : Expr) :
    (op.node span left right).span = span ∧ (op.node span left right).children = [left, right] ∧
      (op.node span left right).ownSpans = [] := by
  cases op <;> exact ⟨rfl, rfl, rfl⟩

theorem Argument.eq_value {a : Argument Expr} {e : Expr} (h : a.value? = some e) :
    a = .value e := by
  cases a <;> cases h
  rfl

namespace Clause

theorem IsProperty.within {x : Clause (Property Expr)} (h : x.IsProperty) :
    ∀ s ∈ [x.value.key.span, x.value.span], s.Within x.signs := by
  obtain ⟨kind, a, -, hbefore, -, hspan⟩ := h
  have hkey : x.value.key.span.Within x.signs :=
    Span.within_part kind (by simp [signs, hbefore])
  simp [hkey, hspan.within]

theorem IsArgument.within {x : Clause (Argument Expr)} (h : x.IsArgument) :
    ∀ s ∈ x.value.placeholderSpan?, s.Within x.signs := by
  intro s hs
  unfold IsArgument at h
  rcases hx : x.value with e | span <;> rw [hx] at h hs
  · cases hs
  · obtain rfl : span = s := Option.some.inj hs
    exact Span.within_part (.symbol .hash) (by simp [signs, h.1])

theorem IsDeclaration.within {x : Clause (Declaration Expr)} (h : x.IsDeclaration)
    (hinit : x.value.init.span.Within x.body) :
    ∀ s ∈ [x.value.name.span, x.value.span], s.Within x.signs := by
  obtain ⟨a, b, hbefore, -, hspan⟩ := h
  have hname : x.value.name.span.Within x.signs :=
    Span.within_part (.identifier x.value.name.text) (by simp [signs, hbefore, Name.sign])
  have hinit := hinit.mono fun u (hu : u ∈ x.body) => mem_signs hu
  simp [hname, hspan, hname.merge hinit]

end Clause

theorem Parameters.within {us : List Sign} {ns : List Name} (h : Parameters us ns) {n : Name}
    (hn : n ∈ ns) : n.span.Within us := by
  refine Span.within_part (.identifier n.text) ?_
  change n.sign ∈ us
  cases h with
  | bare m => exact List.mem_singleton.1 hn ▸ List.mem_singleton_self _
  | single m a b => simp [List.mem_singleton.1 hn]
  | several a b _ h =>
    simp [h.mem (List.mem_map_of_mem hn) (List.mem_singleton_self n.sign)]

theorem Spells.exists_composes {us : List Sign} {e : Expr} (h : Spells us e) :
    ∃ vs, vs <:+: us ∧ Composes vs e := by
  induction h with
  | literal span l => exact ⟨_, List.infix_rfl, ⟨rfl, rfl⟩, .nil _, List.forall_mem_nil _⟩
  | identifier span name => exact ⟨_, List.infix_rfl, ⟨rfl, rfl⟩, .nil _, List.forall_mem_nil _⟩
  | topic span => exact ⟨_, List.infix_rfl, ⟨rfl, rfl⟩, .nil _, List.forall_mem_nil _⟩
  | group a b h ih =>
    -- The span of a node leaves out the parentheses around it.
    obtain ⟨vs, hvs, hcomposes⟩ := ih
    exact ⟨vs, hvs.trans ⟨_, _, rfl⟩, hcomposes⟩
  | unary op a h hspan =>
    exact ⟨_, List.infix_rfl, hspan, (Rows.of_spells h).append_left _, List.forall_mem_nil _⟩
  | @infixed us vs left right span op a hleft hright hspan =>
    obtain ⟨hnode, hchildren, hown⟩ := op.layout_node span left right
    refine ⟨_, List.infix_rfl, by rwa [hnode], ?_, hown ▸ List.forall_mem_nil _⟩
    rw [hchildren]
    exact ((Rows.of_spells hleft).append_right _).append (.of_spells hright)
  | conditional a b htest hconsequent hspan =>
    refine ⟨_, List.infix_rfl, hspan, ?_, List.forall_mem_nil _⟩
    exact (((Rows.of_spells htest).append_left _).append_right _).append (.of_spells hconsequent)
  | conditionalElse a b c htest hconsequent halternate hspan =>
    refine ⟨_, List.infix_rfl, hspan, ?_, List.forall_mem_nil _⟩
    have htest := ((Rows.of_spells htest).append_left [.keyword .if_ a]).append_right
      [.keyword .then_ b]
    exact ((htest.append (.of_spells hconsequent)).append_right _).append (.of_spells halternate)
  | @object cs vs span a b hvalues hforms hlisted hspan =>
    have hrows : Rows vs ((cs.map (·.value)).map (·.value)) := by
      rw [List.map_eq_flatMap]
      exact .listed (fun x hx => .of_body (hvalues x hx)) hlisted
    refine ⟨_, List.infix_rfl, hspan, (hrows.append_left _).append_right _, fun s hs => ?_⟩
    rw [Expr.ownSpans, List.flatMap_map] at hs
    obtain ⟨x, hx, hs⟩ := List.mem_flatMap.1 hs
    refine ((hforms x hx).within s hs).mono fun u hu => ?_
    simp [hlisted.mem (List.mem_map_of_mem hx) hu]
  | @array cs vs span a b hvalues hforms hlisted hspan =>
    have hrows : Rows vs ((cs.map (·.value)).filterMap id) := by
      rw [List.filterMap_eq_flatMap_toList]
      exact .listed (fun x hx => .of_body? (hvalues x hx)) hlisted
    exact ⟨_, List.infix_rfl, hspan, (hrows.append_left _).append_right _, List.forall_mem_nil _⟩
  | access extended a b htarget hname hspan =>
    refine ⟨_, List.infix_rfl, hspan, ?_, List.forall_mem_nil _⟩
    exact ((Rows.of_spells htarget).append_right _).append (.of_fits (.name b hname))
  | lookup a b htarget hkey hspan =>
    refine ⟨_, List.infix_rfl, hspan, ?_, List.forall_mem_nil _⟩
    exact (((Rows.of_spells htarget).append_right _).append (.of_spells hkey)).append_right _
  | @call us vs callee cs span a b hcallee hvalues hforms hlisted hspan =>
    have hrows : Rows vs ((cs.map (·.value)).filterMap (·.value?)) := by
      rw [List.filterMap_eq_flatMap_toList]
      exact .listed
        (fun x hx => .of_body? fun t ht => hvalues x hx t (Argument.eq_value ht)) hlisted
    have hcallee := (Rows.of_spells hcallee).append_right [.symbol .leftParen a]
    refine ⟨_, List.infix_rfl, hspan, (hcallee.append hrows).append_right _, fun s hs => ?_⟩
    rw [Expr.ownSpans, List.filterMap_map] at hs
    obtain ⟨x, hx, hs⟩ := List.mem_filterMap.1 hs
    refine ((hforms x hx).within s hs).mono fun u hu => ?_
    simp [hlisted.mem (List.mem_map_of_mem hx) hu]
  | @pipe us head cs span hhead hvalues hforms hspan =>
    have hrows : Rows (cs.flatMap (·.signs)) ((cs.map (·.value)).map (·.body)) := by
      rw [List.map_eq_flatMap]
      exact .flatMap fun x hx => .of_body (hvalues x hx)
    exact ⟨_, List.infix_rfl, hspan, (Rows.of_spells hhead).append hrows, List.forall_mem_nil _⟩
  | @lambda us vs parameters body span a hparameters hbody hspan =>
    refine ⟨_, List.infix_rfl, hspan, (Rows.of_spells hbody).append_left _, fun s hs => ?_⟩
    obtain ⟨n, hn, rfl⟩ := List.mem_map.1 hs
    exact (hparameters.within hn).mono fun u hu => by simp [hu]
  | @letIn us cs body span a hvalues hforms hbody hspan ih =>
    have hrows : Rows (cs.flatMap (·.signs)) ((cs.map (·.value)).map (·.init)) := by
      rw [List.map_eq_flatMap]
      exact .flatMap fun x hx => .of_body (hvalues x hx)
    refine ⟨_, List.infix_rfl, hspan, (hrows.append_left _).append (.of_spells hbody),
      fun s hs => ?_⟩
    rw [Expr.ownSpans, List.flatMap_map] at hs
    obtain ⟨x, hx, hs⟩ := List.mem_flatMap.1 hs
    -- A declaration ends with its value, where parentheses around that may still follow.
    obtain ⟨ws, hws, hcomposes⟩ := ih x hx
    have hinit := hcomposes.covers.within.mono hws.subset
    refine ((hforms x hx).within hinit s hs).mono fun u hu => ?_
    have hmem : u ∈ cs.flatMap (·.signs) := List.mem_flatMap.2 ⟨x, hx, hu⟩
    simp [hmem]

theorem Fits.exists_composes {us : List Sign} {e : Expr} (h : Fits us e) :
    ∃ vs, vs <:+: us ∧ Composes vs e := by
  cases h with
  | spells h => exact h.exists_composes
  | name span hname =>
    exact ⟨_, List.infix_rfl, ⟨rfl, rfl⟩, .nil _, List.forall_mem_nil _⟩

theorem Fits.within {us : List Sign} {e : Expr} (h : Fits us e) : e.span.Within us := by
  obtain ⟨vs, hvs, hcomposes⟩ := h.exists_composes
  exact hcomposes.covers.within.mono hvs.subset

theorem Rows.pairwise {us : List Sign} {es : List Expr} (h : Rows us es) (hordered : Ordered us) :
    (es.map Expr.span).Pairwise fun a b => a.stop.offset ≤ b.start.offset := by
  induction h with
  | nil => exact .nil
  | @cons bs cs e es as h hs ih =>
    have hcs := hordered.sublist (List.sublist_append_right (as ++ bs) cs)
    refine List.pairwise_cons.2 ⟨List.forall_mem_map.2 fun f hf => ?_, ih hcs⟩
    obtain ⟨vs, hvs, hfits⟩ := hs.exists_infix hf
    obtain ⟨-, u, hu, hstop⟩ := h.within
    obtain ⟨⟨v, hv, hstart⟩, -⟩ := hfits.within
    rw [← hstop, ← hstart]
    exact (List.pairwise_append.1 hordered.pairwise).2.2 u (List.mem_append_right _ hu) v
      (hvs.subset hv)

/-- All nodes below a tree fit runs of its tokens. -/
theorem Fits.exists_of_at? {us : List Sign} {e n : Expr} {path : List Nat} (h : Fits us e)
    (hn : e.at? path = some n) : ∃ vs, vs <:+: us ∧ Fits vs n := by
  induction path generalizing us e with
  | nil =>
    cases hn
    exact ⟨us, List.infix_rfl, h⟩
  | cons i path ih =>
    rw [Expr.at?] at hn
    obtain ⟨c, hc, hn⟩ := Option.bind_eq_some_iff.1 hn
    obtain ⟨vs, hvs, hcomposes⟩ := h.exists_composes
    obtain ⟨ws, hws, hfits⟩ := hcomposes.children.exists_infix (List.mem_of_getElem? hc)
    obtain ⟨xs, hxs, hfits⟩ := ih hfits hn
    exact ⟨xs, (hxs.trans hws).trans hvs, hfits⟩

theorem Ordered.of_tiles {text : String} {ts : List Token} {us : List Sign} {last : Token}
    (h : Lexer.Tiles text ts) (hts : ts = us.map (·.token) ++ [last])
    (hus : ∀ u ∈ us, u.token.kind ≠ .endOfInput) : Ordered us := by
  have hordered := h.ordered
  rw [hts] at hordered
  refine ⟨List.pairwise_map.1 (List.pairwise_append.1 hordered).1, fun u hu => ?_⟩
  exact h.nonempty _ (hts ▸ List.mem_append_left _ (List.mem_map_of_mem hu)) (hus u hu)

theorem Composes.nests {us vs : List Sign} {e : Expr} (h : Composes vs e) (hordered : Ordered us)
    (hvs : vs <:+: us) {ts : List Token} (hts : us.map (·.token) ⊆ ts)
    (hus : ∀ u ∈ us, u.token.kind ≠ .endOfInput) : e.Nests ts := by
  have hsorted := hordered.sublist hvs.sublist
  have hmem : ∀ u ∈ vs, u.token ∈ ts ∧ u.token.kind ≠ .endOfInput := fun u hu =>
    ⟨hts (List.mem_map_of_mem (hvs.subset hu)), hus u (hvs.subset hu)⟩
  obtain ⟨⟨u, hu, hstart⟩, v, hv, hstop⟩ := h.covers.within
  refine ⟨⟨u.token, (hmem u hu).1, (hmem u hu).2, hstart⟩,
    ⟨v.token, (hmem v hv).1, (hmem v hv).2, hstop⟩, ?_, fun s hs => ?_,
    h.children.pairwise hsorted⟩
  · calc e.span.start.offset ≤ v.token.span.start.offset := hsorted.start_le h.covers hv
      _ < v.token.span.stop.offset := hsorted.nonempty v hv
      _ = e.span.stop.offset := by rw [hstop]
  · rcases List.mem_append.1 hs with hs | hs
    · obtain ⟨c, hc, rfl⟩ := List.mem_map.1 hs
      obtain ⟨ws, hws, hfits⟩ := h.children.exists_infix hc
      exact hsorted.contains h.covers (hfits.within.mono hws.subset)
    · exact hsorted.contains h.covers (h.own s hs)

/-- Every node begins where a token begins and ends where one ends, contains what belongs to it,
and has its children in their order, none of them reaching into the next. -/
theorem parse_nests {text : String} {e n : Expr} (h : Expr.parse text = .ok e)
    (hn : e.HasNode n) : n.Nests (lex text).tokens := by
  obtain ⟨us, last, htokens, -, hus, hspells⟩ := Expr.spells_of_parse h
  obtain ⟨path, hn⟩ := hn
  obtain ⟨vs, hvs, hfits⟩ := (Fits.spells hspells).exists_of_at? hn
  obtain ⟨ws, hws, hcomposes⟩ := hfits.exists_composes
  refine hcomposes.nests (.of_tiles (Lexer.tiles_lex text) htokens hus) (hws.trans hvs) ?_ hus
  rw [htokens]
  exact List.subset_append_left _ _

/-- The call in a text where parentheses stand around a callee, a value and a declared value. -/
theorem parse_nests_call :
    let text := "let f = (x => \x7bk: (x)\x7d), (f)(#, (f))"
    ∃ e n, Expr.parse text = .ok e ∧ e.HasNode n ∧ n.children.length = 2 ∧
      n.ownSpans.length = 1 ∧ n.Nests (lex text).tokens := by
  intro text
  have hshape : ((Expr.parse text).toOption.bind fun e => e.at? [1]).map
      (fun n => (n.children.length, n.ownSpans.length)) = some (2, 1) := by decide +kernel
  rcases hparse : Expr.parse text with log | e <;> rw [hparse] at hshape
  · cases hshape
  · obtain ⟨n, hn, hlengths⟩ := Option.map_eq_some_iff.1 hshape
    obtain ⟨hchildren, hown⟩ := Prod.mk.inj hlengths
    exact ⟨e, n, rfl, ⟨[1], hn⟩, hchildren, hown, parse_nests hparse ⟨[1], hn⟩⟩

end ExprLang
