import ExprLang.Expr.Codec
import ExprLang.Proofs.Documents.Texts

/-!
The texts of trees. Spans are read back as they are if they fit in words of 32 bits, names and
strings always; a number becomes what is read for it.
-/
namespace ExprLang

def wordSize : Nat := 0x100000000

structure Position.FitsWord (p : Position) : Prop where
  offset : p.offset < wordSize
  line : p.line < wordSize
  column : p.column < wordSize

structure Span.FitsWord (s : Span) : Prop where
  start : s.start.FitsWord
  stop : s.stop.FitsWord

instance (p : Position) : Decidable p.FitsWord :=
  decidable_of_iff (p.offset < wordSize ∧ p.line < wordSize ∧ p.column < wordSize)
    ⟨fun h => ⟨h.1, h.2.1, h.2.2⟩, fun h => ⟨h.offset, h.line, h.column⟩⟩

instance (s : Span) : Decidable s.FitsWord :=
  decidable_of_iff (s.start.FitsWord ∧ s.stop.FitsWord)
    ⟨fun h => ⟨h.1, h.2⟩, fun h => ⟨h.start, h.stop⟩⟩

namespace Literal

def collect {α : Type} (ofNumber : Float → List α) : Literal → List α
  | .number x => ofNumber x
  | _ => []

def mapNumbers (g : Float → Float) : Literal → Literal
  | .number x => .number (g x)
  | l => l

end Literal

namespace Key

def collect {α : Type} (ofSpan : Span → List α) (ofNumber : Float → List α) : Key → List α
  | .name id => ofSpan id.span
  | .literal l span => l.collect ofNumber ++ ofSpan span

def mapNumbers (g : Float → Float) : Key → Key
  | .literal l span => .literal (l.mapNumbers g) span
  | k => k

end Key

namespace Expr

section Collecting

variable {α : Type} (ofSpan : Span → List α) (ofNumber : Float → List α)

mutual

/-- What the spans and the number literals of a tree give, keys included. -/
def collect : Expr → List α
  | .literal span l => l.collect ofNumber ++ ofSpan span
  | .identifier span _ | .topic span => ofSpan span
  | .unary span _ argument => argument.collect ++ ofSpan span
  | .binary span _ left right | .logical span _ left right | .coalesce span left right =>
    left.collect ++ right.collect ++ ofSpan span
  | .conditional span test consequent alternate =>
    test.collect ++ consequent.collect ++ collectOption alternate ++ ofSpan span
  | .object span properties => collectProperties properties ++ ofSpan span
  | .array span elements => collectElements elements ++ ofSpan span
  | .member span target key _ _ => target.collect ++ key.collect ++ ofSpan span
  | .call span callee arguments => callee.collect ++ collectArguments arguments ++ ofSpan span
  | .pipe span head stages => head.collect ++ collectStages stages ++ ofSpan span
  | .lambda span parameters body =>
    parameters.flatMap (ofSpan ·.span) ++ body.collect ++ ofSpan span
  | .letIn span declarations body =>
    collectDeclarations declarations ++ body.collect ++ ofSpan span

def collectOption : Option Expr → List α
  | none => []
  | some e => e.collect

def collectProperties : List (Property Expr) → List α
  | [] => []
  | ⟨key, value, span⟩ :: ps =>
    key.collect ofSpan ofNumber ++ value.collect ++ ofSpan span ++ collectProperties ps

def collectElements : List (Option Expr) → List α
  | [] => []
  | e :: es => collectOption e ++ collectElements es

def collectArguments : List (Argument Expr) → List α
  | [] => []
  | .value e :: as => e.collect ++ collectArguments as
  | .placeholder span :: as => ofSpan span ++ collectArguments as

def collectStages : List (Stage Expr) → List α
  | [] => []
  | ⟨_, body⟩ :: ss => body.collect ++ collectStages ss

def collectDeclarations : List (Declaration Expr) → List α
  | [] => []
  | ⟨name, init, span⟩ :: ds =>
    ofSpan name.span ++ init.collect ++ ofSpan span ++ collectDeclarations ds

end

end Collecting

def numbers (e : Expr) : List Float := e.collect (fun _ => []) ([·])

def spans (e : Expr) : List Span := e.collect ([·]) (fun _ => [])

mutual

def mapNumbers (g : Float → Float) : Expr → Expr
  | .literal span l => .literal span (l.mapNumbers g)
  | .identifier span name => .identifier span name
  | .topic span => .topic span
  | .unary span op argument => .unary span op (argument.mapNumbers g)
  | .binary span op left right => .binary span op (left.mapNumbers g) (right.mapNumbers g)
  | .logical span op left right => .logical span op (left.mapNumbers g) (right.mapNumbers g)
  | .coalesce span left right => .coalesce span (left.mapNumbers g) (right.mapNumbers g)
  | .conditional span test consequent alternate =>
    .conditional span (test.mapNumbers g) (consequent.mapNumbers g) (mapOption g alternate)
  | .object span properties => .object span (mapProperties g properties)
  | .array span elements => .array span (mapElements g elements)
  | .member span target key computed extended =>
    .member span (target.mapNumbers g) (key.mapNumbers g) computed extended
  | .call span callee arguments => .call span (callee.mapNumbers g) (mapArguments g arguments)
  | .pipe span head stages => .pipe span (head.mapNumbers g) (mapStages g stages)
  | .lambda span parameters body => .lambda span parameters (body.mapNumbers g)
  | .letIn span declarations body =>
    .letIn span (mapDeclarations g declarations) (body.mapNumbers g)

def mapOption (g : Float → Float) : Option Expr → Option Expr
  | none => none
  | some e => some (e.mapNumbers g)

def mapProperties (g : Float → Float) : List (Property Expr) → List (Property Expr)
  | [] => []
  | ⟨key, value, span⟩ :: ps =>
    ⟨key.mapNumbers g, value.mapNumbers g, span⟩ :: mapProperties g ps

def mapElements (g : Float → Float) : List (Option Expr) → List (Option Expr)
  | [] => []
  | e :: es => mapOption g e :: mapElements g es

def mapArguments (g : Float → Float) : List (Argument Expr) → List (Argument Expr)
  | [] => []
  | .value e :: as => .value (e.mapNumbers g) :: mapArguments g as
  | .placeholder span :: as => .placeholder span :: mapArguments g as

def mapStages (g : Float → Float) : List (Stage Expr) → List (Stage Expr)
  | [] => []
  | ⟨optional, body⟩ :: ss => ⟨optional, body.mapNumbers g⟩ :: mapStages g ss

def mapDeclarations (g : Float → Float) : List (Declaration Expr) → List (Declaration Expr)
  | [] => []
  | ⟨name, init, span⟩ :: ds => ⟨name, init.mapNumbers g, span⟩ :: mapDeclarations g ds

end

end Expr

theorem Literal.mapNumbers_eq_self {g : Float → Float} {l : Literal}
    (h : ∀ x ∈ l.collect ([·]), g x = x) : l.mapNumbers g = l := by
  cases l with
  | number x => exact congrArg Literal.number (h x List.mem_cons_self)
  | _ => rfl

theorem Key.mapNumbers_eq_self {g : Float → Float} {k : Key}
    (h : ∀ x ∈ k.collect (fun _ => []) ([·]), g x = x) : k.mapNumbers g = k := by
  cases k with
  | name id => rfl
  | literal l span =>
    rw [mapNumbers, Literal.mapNumbers_eq_self fun x hx => h x (List.mem_append_left _ hx)]

namespace Expr

section Identity

variable {g : Float → Float}

mutual

/-- A map that leaves the numbers of a tree alone leaves the tree alone. -/
theorem mapNumbers_eq_self : ∀ (e : Expr), (∀ x ∈ e.numbers, g x = x) → e.mapNumbers g = e
  | .literal _ l, h => by
    rw [mapNumbers, Literal.mapNumbers_eq_self fun x hx => h x (List.mem_append_left _ hx)]
  | .identifier .., _ => rfl
  | .topic _, _ => rfl
  | .unary _ _ argument, h => by
    simp only [numbers, collect, List.append_nil] at h
    rw [mapNumbers, mapNumbers_eq_self argument h]
  | .binary _ _ left right, h => by
    simp only [numbers, collect, List.append_nil, List.forall_mem_append] at h
    rw [mapNumbers, mapNumbers_eq_self left h.1, mapNumbers_eq_self right h.2]
  | .logical _ _ left right, h => by
    simp only [numbers, collect, List.append_nil, List.forall_mem_append] at h
    rw [mapNumbers, mapNumbers_eq_self left h.1, mapNumbers_eq_self right h.2]
  | .coalesce _ left right, h => by
    simp only [numbers, collect, List.append_nil, List.forall_mem_append] at h
    rw [mapNumbers, mapNumbers_eq_self left h.1, mapNumbers_eq_self right h.2]
  | .conditional _ test consequent alternate, h => by
    simp only [numbers, collect, List.append_nil, List.forall_mem_append] at h
    rw [mapNumbers, mapNumbers_eq_self test h.1.1, mapNumbers_eq_self consequent h.1.2,
      mapOption_eq_self alternate h.2]
  | .object _ properties, h => by
    simp only [numbers, collect, List.append_nil] at h
    rw [mapNumbers, mapProperties_eq_self properties h]
  | .array _ elements, h => by
    simp only [numbers, collect, List.append_nil] at h
    rw [mapNumbers, mapElements_eq_self elements h]
  | .member _ target key _ _, h => by
    simp only [numbers, collect, List.append_nil, List.forall_mem_append] at h
    rw [mapNumbers, mapNumbers_eq_self target h.1, mapNumbers_eq_self key h.2]
  | .call _ callee arguments, h => by
    simp only [numbers, collect, List.append_nil, List.forall_mem_append] at h
    rw [mapNumbers, mapNumbers_eq_self callee h.1, mapArguments_eq_self arguments h.2]
  | .pipe _ head stages, h => by
    simp only [numbers, collect, List.append_nil, List.forall_mem_append] at h
    rw [mapNumbers, mapNumbers_eq_self head h.1, mapStages_eq_self stages h.2]
  | .lambda _ parameters body, h => by
    simp only [numbers, collect, List.append_nil, List.forall_mem_append] at h
    rw [mapNumbers, mapNumbers_eq_self body h.2]
  | .letIn _ declarations body, h => by
    simp only [numbers, collect, List.append_nil, List.forall_mem_append] at h
    rw [mapNumbers, mapDeclarations_eq_self declarations h.1, mapNumbers_eq_self body h.2]

theorem mapOption_eq_self : ∀ (e : Option Expr),
    (∀ x ∈ collectOption (fun _ => []) ([·]) e, g x = x) → mapOption g e = e
  | none, _ => rfl
  | some e, h => by rw [mapOption, mapNumbers_eq_self e h]

theorem mapProperties_eq_self : ∀ (ps : List (Property Expr)),
    (∀ x ∈ collectProperties (fun _ => []) ([·]) ps, g x = x) → mapProperties g ps = ps
  | [], _ => rfl
  | ⟨key, value, span⟩ :: ps, h => by
    simp only [collectProperties, List.append_nil, List.forall_mem_append] at h
    rw [mapProperties, Key.mapNumbers_eq_self h.1.1, mapNumbers_eq_self value h.1.2,
      mapProperties_eq_self ps h.2]

theorem mapElements_eq_self : ∀ (es : List (Option Expr)),
    (∀ x ∈ collectElements (fun _ => []) ([·]) es, g x = x) → mapElements g es = es
  | [], _ => rfl
  | e :: es, h => by
    simp only [collectElements, List.forall_mem_append] at h
    rw [mapElements, mapOption_eq_self e h.1, mapElements_eq_self es h.2]

theorem mapArguments_eq_self : ∀ (as : List (Argument Expr)),
    (∀ x ∈ collectArguments (fun _ => []) ([·]) as, g x = x) → mapArguments g as = as
  | [], _ => rfl
  | .value e :: as, h => by
    simp only [collectArguments, List.forall_mem_append] at h
    rw [mapArguments, mapNumbers_eq_self e h.1, mapArguments_eq_self as h.2]
  | .placeholder span :: as, h => by rw [mapArguments, mapArguments_eq_self as h]

theorem mapStages_eq_self : ∀ (ss : List (Stage Expr)),
    (∀ x ∈ collectStages (fun _ => []) ([·]) ss, g x = x) → mapStages g ss = ss
  | [], _ => rfl
  | ⟨_, body⟩ :: ss, h => by
    simp only [collectStages, List.forall_mem_append] at h
    rw [mapStages, mapNumbers_eq_self body h.1, mapStages_eq_self ss h.2]

theorem mapDeclarations_eq_self : ∀ (ds : List (Declaration Expr)),
    (∀ x ∈ collectDeclarations (fun _ => []) ([·]) ds, g x = x) → mapDeclarations g ds = ds
  | [], _ => rfl
  | ⟨name, init, span⟩ :: ds, h => by
    simp only [collectDeclarations, List.append_nil, List.nil_append, List.forall_mem_append] at h
    rw [mapDeclarations, mapNumbers_eq_self init h.1, mapDeclarations_eq_self ds h.2]

end

end Identity

end Expr

namespace Json

/-- A document with a text, and what is read from the text. -/
structure Reads (j j' : Json) : Prop where
  written : j.Written
  reread : j.reread = j'

structure ReadsItems (js js' : List Json) : Prop where
  written : WrittenItems js
  reread : rereadItems js = js'

structure ReadsMembers (ms ms' : List (String × Json)) : Prop where
  written : WrittenMembers ms
  reread : rereadMembers ms = ms'

namespace Reads

theorem string (s : String) : Reads (.string s) (.string s) := ⟨trivial, rfl⟩

theorem bool (b : Bool) : Reads (.bool b) (.bool b) := ⟨trivial, rfl⟩

theorem null : Reads .null .null := ⟨trivial, rfl⟩

theorem nat {n : Nat} (h : n < wordSize) : Reads (.nat n) (.nat n) := by
  have hn : n ≤ JsonNumber.maxSignificand := by
    unfold wordSize at h
    unfold JsonNumber.maxSignificand
    omega
  exact ⟨⟨Int.natCast_nonneg n, Int.ofNat_le.2 hn⟩, JsonNumber.reread_nat hn⟩

theorem array {js js' : List Json} (h : ReadsItems js js') : Reads (.array js) (.array js') :=
  ⟨h.written, congrArg Json.array h.reread⟩

theorem object {ms ms' : List (String × Json)} (h : ReadsMembers ms ms') :
    Reads (.object ms) (.object ms') :=
  ⟨h.written, congrArg Json.object h.reread⟩

end Reads

theorem ReadsItems.nil : ReadsItems [] [] := ⟨trivial, rfl⟩

theorem ReadsItems.cons {j j' : Json} {js js' : List Json} (h : Reads j j')
    (hs : ReadsItems js js') : ReadsItems (j :: js) (j' :: js') :=
  ⟨⟨h.written, hs.written⟩, by rw [rereadItems, h.reread, hs.reread]⟩

theorem ReadsMembers.nil : ReadsMembers [] [] := ⟨trivial, rfl⟩

theorem ReadsMembers.cons (k : String) {j j' : Json} {ms ms' : List (String × Json)}
    (h : Reads j j') (hs : ReadsMembers ms ms') : ReadsMembers ((k, j) :: ms) ((k, j') :: ms') :=
  ⟨⟨h.written, hs.written⟩, by rw [rereadMembers, h.reread, hs.reread]⟩

namespace Reads

theorem member (k : String) {j j' : Json} (h : Reads j j') :
    Reads (.object [(k, j)]) (.object [(k, j')]) :=
  object (.cons k h .nil)

theorem members₂ (k l : String) {j j' i i' : Json} (hj : Reads j j') (hi : Reads i i') :
    Reads (.object [(k, j), (l, i)]) (.object [(k, j'), (l, i')]) :=
  object (.cons k hj (.cons l hi .nil))

theorem members₃ (k l m : String) {j j' i i' h h' : Json} (hj : Reads j j') (hi : Reads i i')
    (hh : Reads h h') :
    Reads (.object [(k, j), (l, i), (m, h)]) (.object [(k, j'), (l, i'), (m, h')]) :=
  object (.cons k hj (.cons l hi (.cons m hh .nil)))

end Reads

end Json

open Json (Reads ReadsItems)

theorem Position.FitsWord.reads {p : Position} (h : p.FitsWord) : Reads p.toJson p.toJson :=
  .members₃ _ _ _ (.nat h.offset) (.nat h.line) (.nat h.column)

theorem Span.FitsWord.reads {s : Span} (h : s.FitsWord) : Reads s.toJson s.toJson :=
  .members₂ _ _ h.start.reads h.stop.reads

theorem Name.reads {n : Name} (h : n.span.FitsWord) : Reads n.toJson n.toJson :=
  .members₂ _ _ (.string _) h.reads

/-- What is read for a number of a tree. -/
def readNumberJson (x : Float) : Json := (numberJson x).reread

/-- The double that is read for a number of a tree, if there is one. -/
def readBack? (x : Float) : Option Float := Decoder.double 0 (readNumberJson x)

def readBack (x : Float) : Float := (readBack? x).getD x

theorem readBack?_eq_none {x : Float} (h : Binary64.isFinite x = false) : readBack? x = none := by
  rw [readBack?, readNumberJson, numberJson, h]
  rfl

theorem reads_numberJson (x : Float) : Reads (numberJson x) (readNumberJson x) := by
  refine ⟨?_, rfl⟩
  unfold numberJson
  split
  · assumption
  · trivial

theorem nesting_readNumberJson (x : Float) : (readNumberJson x).nesting = 0 := by
  rw [readNumberJson, Json.nesting_reread _ (reads_numberJson x).written, numberJson]
  split <;> rfl

theorem Literal.reads (l : Literal) : Reads (l.toJson numberJson) (l.toJson readNumberJson) := by
  cases l with
  | number x => exact .member _ (reads_numberJson x)
  | string s => exact .member _ (.string s)
  | boolean b => exact .member _ (.bool b)
  | null => exact .string _

theorem Key.reads {k : Key} (h : ∀ s ∈ k.collect ([·]) fun _ => [], s.FitsWord) :
    Reads (k.toJson numberJson) (k.toJson readNumberJson) := by
  cases k with
  | name id => exact .member _ (Name.reads (h _ List.mem_cons_self))
  | literal l span =>
    have hspan : span.FitsWord := h span (List.mem_append_right _ List.mem_cons_self)
    exact .member _ (.array (.cons l.reads (.cons hspan.reads .nil)))

namespace Expr

theorem reads_node {kind kind' : Json} {span : Span} (hkind : Reads kind kind')
    (hspan : span.FitsWord) : Reads (node kind span) (node kind' span) :=
  .members₂ _ _ hkind hspan.reads

theorem reads_names {ns : List Name} (h : ∀ s ∈ ns.flatMap (fun n => [n.span]), s.FitsWord) :
    ReadsItems (ns.map Name.toJson) (ns.map Name.toJson) := by
  induction ns with
  | nil => exact .nil
  | cons n ns ih =>
    simp only [List.flatMap_cons, List.singleton_append, List.forall_mem_cons] at h
    exact .cons (Name.reads h.1) (ih h.2)

mutual

theorem reads_toJson : ∀ (e : Expr), (∀ s ∈ e.spans, s.FitsWord) →
    Reads e.toJson (e.toJsonWith readNumberJson)
  | .literal span l, h => by
    simp only [spans, collect, List.forall_mem_append, List.forall_mem_singleton] at h
    exact reads_node (.member _ l.reads) h.2
  | .identifier span name, h => reads_node (.member _ (.string name)) (h span List.mem_cons_self)
  | .topic span, h => reads_node (.string _) (h span List.mem_cons_self)
  | .unary span op argument, h => by
    simp only [spans, collect, List.forall_mem_append, List.forall_mem_singleton] at h
    exact reads_node (.member _ (.members₂ _ _ (.string _) (reads_toJson argument h.1))) h.2
  | .binary span op left right, h => by
    simp only [spans, collect, List.forall_mem_append, List.forall_mem_singleton] at h
    exact reads_node (.member _ (.members₃ _ _ _ (.string _) (reads_toJson left h.1.1)
      (reads_toJson right h.1.2))) h.2
  | .logical span op left right, h => by
    simp only [spans, collect, List.forall_mem_append, List.forall_mem_singleton] at h
    exact reads_node (.member _ (.members₃ _ _ _ (.string _) (reads_toJson left h.1.1)
      (reads_toJson right h.1.2))) h.2
  | .coalesce span left right, h => by
    simp only [spans, collect, List.forall_mem_append, List.forall_mem_singleton] at h
    exact reads_node (.member _ (.members₂ _ _ (reads_toJson left h.1.1)
      (reads_toJson right h.1.2))) h.2
  | .conditional span test consequent alternate, h => by
    simp only [spans, collect, List.forall_mem_append, List.forall_mem_singleton] at h
    exact reads_node (.member _ (.members₃ _ _ _ (reads_toJson test h.1.1.1)
      (reads_toJson consequent h.1.1.2) (reads_optionJson alternate h.1.2))) h.2
  | .object span properties, h => by
    simp only [spans, collect, List.forall_mem_append, List.forall_mem_singleton] at h
    exact reads_node (.member _ (.array (reads_propertiesJson properties h.1))) h.2
  | .array span elements, h => by
    simp only [spans, collect, List.forall_mem_append, List.forall_mem_singleton] at h
    exact reads_node (.member _ (.array (reads_elementsJson elements h.1))) h.2
  | .member span target key computed extended, h => by
    simp only [spans, collect, List.forall_mem_append, List.forall_mem_singleton] at h
    exact reads_node (.member _ (.object (.cons _ (reads_toJson target h.1.1)
      (.cons _ (reads_toJson key h.1.2) (.cons _ (.bool _) (.cons _ (.bool _) .nil)))))) h.2
  | .call span callee arguments, h => by
    simp only [spans, collect, List.forall_mem_append, List.forall_mem_singleton] at h
    exact reads_node (.member _ (.members₂ _ _ (reads_toJson callee h.1.1)
      (.array (reads_argumentsJson arguments h.1.2)))) h.2
  | .pipe span head stages, h => by
    simp only [spans, collect, List.forall_mem_append, List.forall_mem_singleton] at h
    exact reads_node (.member _ (.members₂ _ _ (reads_toJson head h.1.1)
      (.array (reads_stagesJson stages h.1.2)))) h.2
  | .lambda span parameters body, h => by
    simp only [spans, collect, List.forall_mem_append, List.forall_mem_singleton] at h
    exact reads_node (.member _ (.members₂ _ _ (.array (reads_names h.1.1))
      (reads_toJson body h.1.2))) h.2
  | .letIn span declarations body, h => by
    simp only [spans, collect, List.forall_mem_append, List.forall_mem_singleton] at h
    exact reads_node (.member _ (.members₂ _ _ (.array (reads_declarationsJson declarations h.1.1))
      (reads_toJson body h.1.2))) h.2

theorem reads_optionJson : ∀ (e : Option Expr),
    (∀ s ∈ collectOption ([·]) (fun _ => []) e, s.FitsWord) →
    Reads (optionJson numberJson e) (optionJson readNumberJson e)
  | none, _ => .null
  | some e, h => reads_toJson e h

theorem reads_propertiesJson : ∀ (ps : List (Property Expr)),
    (∀ s ∈ collectProperties ([·]) (fun _ => []) ps, s.FitsWord) →
    ReadsItems (propertiesJson numberJson ps) (propertiesJson readNumberJson ps)
  | [], _ => .nil
  | ⟨key, value, span⟩ :: ps, h => by
    simp only [collectProperties, List.forall_mem_append, List.forall_mem_singleton] at h
    exact .cons (.members₃ _ _ _ (Key.reads h.1.1.1) (reads_toJson value h.1.1.2) h.1.2.reads)
      (reads_propertiesJson ps h.2)

theorem reads_elementsJson : ∀ (es : List (Option Expr)),
    (∀ s ∈ collectElements ([·]) (fun _ => []) es, s.FitsWord) →
    ReadsItems (elementsJson numberJson es) (elementsJson readNumberJson es)
  | [], _ => .nil
  | e :: es, h => by
    simp only [collectElements, List.forall_mem_append] at h
    exact .cons (reads_optionJson e h.1) (reads_elementsJson es h.2)

theorem reads_argumentsJson : ∀ (as : List (Argument Expr)),
    (∀ s ∈ collectArguments ([·]) (fun _ => []) as, s.FitsWord) →
    ReadsItems (argumentsJson numberJson as) (argumentsJson readNumberJson as)
  | [], _ => .nil
  | .value e :: as, h => by
    simp only [collectArguments, List.forall_mem_append] at h
    exact .cons (.member _ (reads_toJson e h.1)) (reads_argumentsJson as h.2)
  | .placeholder span :: as, h => by
    simp only [collectArguments, List.forall_mem_append, List.forall_mem_singleton] at h
    exact .cons (.member _ h.1.reads) (reads_argumentsJson as h.2)

theorem reads_stagesJson : ∀ (ss : List (Stage Expr)),
    (∀ s ∈ collectStages ([·]) (fun _ => []) ss, s.FitsWord) →
    ReadsItems (stagesJson numberJson ss) (stagesJson readNumberJson ss)
  | [], _ => .nil
  | ⟨optional, body⟩ :: ss, h => by
    simp only [collectStages, List.forall_mem_append] at h
    exact .cons (.members₂ _ _ (.bool optional) (reads_toJson body h.1)) (reads_stagesJson ss h.2)

theorem reads_declarationsJson : ∀ (ds : List (Declaration Expr)),
    (∀ s ∈ collectDeclarations ([·]) (fun _ => []) ds, s.FitsWord) →
    ReadsItems (declarationsJson numberJson ds) (declarationsJson readNumberJson ds)
  | [], _ => .nil
  | ⟨name, init, span⟩ :: ds, h => by
    simp only [collectDeclarations, List.forall_mem_append, List.forall_mem_singleton] at h
    exact .cons (.members₃ _ _ _ (Name.reads h.1.1.1) (reads_toJson init h.1.1.2) h.1.2.reads)
      (reads_declarationsJson ds h.2)

end

/-- What is read from the text of a tree. -/
theorem read?_compact {e : Expr} (h : ∀ s ∈ e.spans, s.FitsWord) :
    Json.read? e.toJson.compact.toList = some (e.toJsonWith readNumberJson) := by
  have hreads := reads_toJson e h
  rw [Json.compact, String.toList_ofList, Json.read?_text hreads.written, hreads.reread]

end Expr

end ExprLang
