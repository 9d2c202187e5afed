import ExprLang.Proofs.Correspondence.Trees
import ExprLang.Proofs.Positions

/-!
A name for the topic. In the body of a stage the references to its topic can be replaced by a name
that occurs nowhere in it, where that name stands for the topic.
-/
namespace ExprLang

namespace Expr

mutual

/-- Calls the topic by a name. Stages within, and functions and declarations that bind the topic
under its own name, keep theirs. -/
def withTopic (t : String) : Expr → Expr
  | .literal span l => .literal span l
  | .identifier span name => .identifier span (if name = topicName then t else name)
  | .topic span => .identifier span t
  | .unary span op argument => .unary span op (argument.withTopic t)
  | .binary span op left right => .binary span op (left.withTopic t) (right.withTopic t)
  | .logical span op left right => .logical span op (left.withTopic t) (right.withTopic t)
  | .coalesce span left right => .coalesce span (left.withTopic t) (right.withTopic t)
  | .conditional span test consequent alternate =>
    .conditional span (test.withTopic t) (consequent.withTopic t) (optionWithTopic t alternate)
  | .object span properties => .object span (propertiesWithTopic t properties)
  | .array span elements => .array span (elementsWithTopic t elements)
  | .member span target key computed extended =>
    .member span (target.withTopic t) (if computed then key.withTopic t else key) computed extended
  | .call span callee arguments =>
    .call span (callee.withTopic t) (argumentsWithTopic t arguments)
  | .pipe span head stages => .pipe span (head.withTopic t) stages
  | .lambda span parameters body =>
    .lambda span parameters
      (if topicName ∈ parameters.map (·.text) then body else body.withTopic t)
  | .letIn span declarations body =>
    .letIn span (declarationsWithTopic t declarations)
      (if topicName ∈ declarations.map (·.name.text) then body else body.withTopic t)

def optionWithTopic (t : String) : Option Expr → Option Expr
  | none => none
  | some e => some (e.withTopic t)

def propertiesWithTopic (t : String) : List (Property Expr) → List (Property Expr)
  | [] => []
  | ⟨key, value, span⟩ :: ps => ⟨key, value.withTopic t, span⟩ :: propertiesWithTopic t ps

def elementsWithTopic (t : String) : List (Option Expr) → List (Option Expr)
  | [] => []
  | e :: es => optionWithTopic t e :: elementsWithTopic t es

def argumentsWithTopic (t : String) : List (Argument Expr) → List (Argument Expr)
  | [] => []
  | .value e :: as => .value (e.withTopic t) :: argumentsWithTopic t as
  | .placeholder span :: as => .placeholder span :: argumentsWithTopic t as

def declarationsWithTopic (t : String) : List (Declaration Expr) → List (Declaration Expr)
  | [] => []
  | ⟨name, init, span⟩ :: ds =>
    ⟨name, init.withTopic t, span⟩ ::
      (if name.text = topicName then ds else declarationsWithTopic t ds)

end

theorem isPlaceholder_argumentsWithTopic (t : String) (as : List (Argument Expr)) :
    as.map (·.isPlaceholder) = (argumentsWithTopic t as).map (·.isPlaceholder) := by
  induction as with
  | nil => rfl
  | cons a as ih => cases a <;> exact congrArg (_ :: ·) ih

/-- No function and no declaration of a tree binds a name. -/
def Avoids (e : Expr) (x : String) : Prop := ∀ n, e.HasNode n → x ∉ n.binders

theorem avoids_iff {e : Expr} {x : String} :
    e.Avoids x ↔ x ∉ e.binders ∧ ∀ c ∈ e.children, c.Avoids x := by
  constructor
  · exact fun h => ⟨h e e.hasNode_root, fun c hc n hn => h n (.of_child hc hn)⟩
  · rintro ⟨hroot, hchildren⟩ n ⟨path, hn⟩
    cases path with
    | nil => exact Option.some.inj hn ▸ hroot
    | cons i path =>
      obtain ⟨c, hc, hn⟩ := Option.bind_eq_some_iff.1 hn
      exact hchildren c (List.mem_of_getElem? hc) n ⟨path, hn⟩

theorem Avoids.child {e c : Expr} {x : String} (h : e.Avoids x) (hc : c ∈ e.children) :
    c.Avoids x :=
  (avoids_iff.1 h).2 c hc

theorem Avoids.not_mem {e : Expr} {x : String} (h : e.Avoids x) : x ∉ e.binders :=
  (avoids_iff.1 h).1

end Expr

open Code

namespace Expr

variable {S : Comparison} {t : String}

mutual

theorem corresponds_withTopic (hS : ¬ S.strict) : ∀ (e : Expr) {k start start' : Nat}
    {D : NamePairs}, e.Avoids t → D.Keeps t e.freeNames →
      Corresponds S k D (e.compile start) ((e.withTopic t).compile start')
  | .literal .., _, _, _, _, _, _ => .constant
  | .identifier _ name, _, _, _, _, _, hD => by
    refine .lookup (fun h => absurd h hS) ?_
    split
    case isTrue htopic => exact htopic ▸ hD.topic
    case isFalse htopic => exact hD.names (List.mem_singleton_self name) htopic
  | .topic _, _, _, _, _, _, hD => .named hS hD.topic
  | .unary _ _ argument, _, _, _, _, ht, hD =>
    .unary (fun h => absurd h hS)
      (corresponds_withTopic hS argument (ht.child (List.mem_singleton_self _)) hD)
  | .binary _ _ left right, _, _, _, _, ht, hD =>
    .binary (fun h => absurd h hS)
      (corresponds_withTopic hS left (ht.child (by simp [children])) hD.left)
      (corresponds_withTopic hS right (ht.child (by simp [children])) hD.right)
  | .logical _ _ left right, _, _, _, _, ht, hD =>
    .logical (fun h => absurd h hS)
      (corresponds_withTopic hS left (ht.child (by simp [children])) hD.left)
      (corresponds_withTopic hS right (ht.child (by simp [children])) hD.right)
  | .coalesce _ left right, _, _, _, _, ht, hD =>
    .coalesce (corresponds_withTopic hS left (ht.child (by simp [children])) hD.left)
      (corresponds_withTopic hS right (ht.child (by simp [children])) hD.right)
  | .conditional _ test consequent alternate, _, _, _, _, ht, hD =>
    .conditional (corresponds_withTopic hS test (ht.child (by simp [children])) hD.left)
      (corresponds_withTopic hS consequent (ht.child (by simp [children])) hD.right.left)
      (corresponds_alternateWithTopic hS alternate
        (fun c hc => ht.child (List.mem_cons_of_mem _ (List.mem_cons_of_mem _
          (Option.mem_toList.2 hc)))) hD.right.right)
  | .object _ properties, _, _, _, _, ht, hD =>
    .object (corresponds_propertiesWithTopic hS properties (fun c hc => ht.child hc) hD)
  | .array _ elements, _, _, _, _, ht, hD =>
    .array (corresponds_elementsWithTopic hS elements (fun c hc => ht.child hc) hD)
  | .member _ target key true _, _, _, _, _, ht, hD =>
    .property (fun h => absurd h hS)
      (corresponds_withTopic hS target (ht.child (by simp [children])) hD.left)
      (corresponds_withTopic hS key (ht.child (by simp [children])) hD.right)
  | .member _ target key false _, _, _, _, _, ht, hD =>
    .property (fun h => absurd h hS)
      (corresponds_withTopic hS target (ht.child (by simp [children])) hD.left)
      (corresponds_plainKey key)
  | .call _ callee arguments, _, _, _, _, ht, hD =>
    corresponds_call (fun h => absurd h hS) (isPlaceholder_argumentsWithTopic t arguments)
      (fun _ => corresponds_withTopic hS callee (ht.child (by simp [children])) hD.left)
      (fun _ => corresponds_argumentsWithTopic hS arguments
        (fun c hc => ht.child (List.mem_cons_of_mem _ hc)) hD.right)
  | .pipe _ head stages, _, _, _, _, ht, hD =>
    .pipe (fun h => absurd h hS)
      (corresponds_withTopic hS head (ht.child (by simp [children])) hD.left)
      (corresponds_stages stages (fun h => absurd h hS) hD.right.stages)
  | .lambda _ parameters body, _, _, _, _, ht, hD => by
    by_cases htopic : topicName ∈ parameters.map (·.text)
    · simp only [withTopic, if_pos htopic]
      exact .lambda (corresponds_compile body (fun h => absurd h hS) (hD.bind_topic htopic))
    · simp only [withTopic, if_neg htopic]
      exact .lambda (corresponds_withTopic hS body (ht.child (List.mem_singleton_self _))
        (hD.bind htopic ht.not_mem))
  | .letIn _ declarations body, _, _, _, _, ht, hD => by
    refine corresponds_declarationsWithTopic hS declarations
      (fun c hc => ht.child (List.mem_append_left _ hc)) ht.not_mem hD ?_ ?_
    · intro htopic D' hD'
      rw [if_pos htopic]
      exact corresponds_compile body (fun h => absurd h hS) hD'
    · intro htopic D' hD'
      rw [if_neg htopic]
      exact corresponds_withTopic hS body (ht.child (List.mem_append_right _ (by simp))) hD'

theorem corresponds_alternateWithTopic (hS : ¬ S.strict) : ∀ (e : Option Expr)
    {k start start' : Nat} {D : NamePairs}, (∀ c ∈ e, c.Avoids t) →
      D.Keeps t (optionFreeNames e) →
      Corresponds S k D (compileAlternate e start) (compileAlternate (optionWithTopic t e) start')
  | none, _, _, _, _, _, _ => .undefined
  | some e, _, _, _, _, ht, hD => corresponds_withTopic hS e (ht e rfl) hD

theorem corresponds_propertiesWithTopic (hS : ¬ S.strict) : ∀ (ps : List (Property Expr))
    {k start start' : Nat} {D : NamePairs}, (∀ c ∈ ps.map (·.value), c.Avoids t) →
      D.Keeps t (propertiesFreeNames ps) →
      CorrespondEntries S k D (compileProperties ps start)
        (compileProperties (propertiesWithTopic t ps) start')
  | [], _, _, _, _, _, _ => .nil
  | ⟨_, value, _⟩ :: ps, _, _, _, _, ht, hD =>
    .cons (corresponds_withTopic hS value (ht value List.mem_cons_self) hD.left)
      (corresponds_propertiesWithTopic hS ps (fun c hc => ht c (List.mem_cons_of_mem _ hc))
        hD.right)

theorem corresponds_elementsWithTopic (hS : ¬ S.strict) : ∀ (es : List (Option Expr))
    {k start start' : Nat} {D : NamePairs}, (∀ c ∈ es.filterMap id, c.Avoids t) →
      D.Keeps t (elementsFreeNames es) →
      CorrespondItems S k D (compileElements es start)
        (compileElements (elementsWithTopic t es) start')
  | [], _, _, _, _, _, _ => .nil
  | none :: es, _, _, _, _, ht, hD => .none (corresponds_elementsWithTopic hS es ht hD.right)
  | some e :: es, _, _, _, _, ht, hD =>
    .some (corresponds_withTopic hS e (ht e (by simp)) hD.left)
      (corresponds_elementsWithTopic hS es (fun c hc => ht c (by simp_all)) hD.right)

theorem corresponds_argumentsWithTopic (hS : ¬ S.strict) : ∀ (as : List (Argument Expr))
    {i k start start' : Nat} {D : NamePairs}, (∀ c ∈ as.filterMap (·.value?), c.Avoids t) →
      D.Keeps t (argumentsFreeNames as) →
      CorrespondItems S k D (compileArguments as i start)
        (compileArguments (argumentsWithTopic t as) i start')
  | [], _, _, _, _, _, _, _ => .nil
  | .value e :: as, _, _, _, _, _, ht, hD =>
    .some (corresponds_withTopic hS e (ht e List.mem_cons_self) hD.left)
      (corresponds_argumentsWithTopic hS as (fun c hc => ht c (List.mem_cons_of_mem _ hc))
        hD.right)
  | .placeholder _ :: as, _, _, _, _, _, ht, hD =>
    .none (corresponds_argumentsWithTopic hS as ht hD)

theorem corresponds_declarationsWithTopic (hS : ¬ S.strict) : ∀ (ds : List (Declaration Expr))
    {k start start' : Nat} {D : NamePairs} {names : List String} {body body' : Code},
      (∀ c ∈ ds.map (·.init), c.Avoids t) → t ∉ ds.map (·.name.text) →
      D.Keeps t (declarationsFreeNames ds names) →
      (topicName ∈ ds.map (·.name.text) →
        ∀ {D' : NamePairs}, D'.Keeps topicName names → Corresponds S k D' body body') →
      (topicName ∉ ds.map (·.name.text) →
        ∀ {D' : NamePairs}, D'.Keeps t names → Corresponds S k D' body body') →
      Corresponds S k D (compileDeclarations ds start body)
        (compileDeclarations (declarationsWithTopic t ds) start' body')
  | [], _, _, _, _, _, _, _, _, _, hD, _, hbody => hbody List.not_mem_nil hD
  | ⟨name, init, _⟩ :: ds, _, _, _, _, _, _, _, ht, hnames, hD, hbound, hbody => by
    rw [List.map_cons, List.mem_cons, not_or] at hnames
    simp only [List.map_cons, List.mem_cons] at hbound hbody
    refine .letIn (corresponds_withTopic hS init (ht init List.mem_cons_self) hD.left) ?_
    by_cases htopic : name.text = topicName
    · -- The declarations after it see the new topic.
      rw [if_pos htopic]
      exact corresponds_declarations ds (fun h => absurd h hS)
        (hD.right.bind_topic (List.mem_singleton.2 htopic.symm)) (hbound (.inl htopic.symm))
    · rw [if_neg htopic]
      refine corresponds_declarationsWithTopic hS ds
        (fun c hc => ht c (List.mem_cons_of_mem _ hc)) hnames.2
        (hD.right.bind (fun h => htopic (List.mem_singleton.1 h).symm)
          fun h => hnames.1 (List.mem_singleton.1 h)) (fun h => hbound (.inr h)) fun h => ?_
      exact hbody fun h' => h'.elim (fun h' => htopic h'.symm) h

end

end Expr

end ExprLang
