import ExprLang.Proofs.Correspondence.Codes

/-!
The free names of a tree, and the correspondence of its code with itself: it does the same in two
environments in which its free names and the topic mean the same.
-/
namespace ExprLang

namespace Expr

mutual

/-- The names of the identifiers that neither a parameter of a lambda around them binds nor a
declaration of a `let` around them that comes before. -/
def freeNames : Expr → List String
  | .literal .. | .topic _ => []
  | .identifier _ name => [name]
  | .unary _ _ argument => argument.freeNames
  | .binary _ _ left right | .logical _ _ left right | .coalesce _ left right =>
    left.freeNames ++ right.freeNames
  | .conditional _ test consequent alternate =>
    test.freeNames ++ (consequent.freeNames ++ optionFreeNames alternate)
  | .object _ properties => propertiesFreeNames properties
  | .array _ elements => elementsFreeNames elements
  -- The name of a property is not an occurrence of an identifier.
  | .member _ target key computed _ => target.freeNames ++ if computed then key.freeNames else []
  | .call _ callee arguments => callee.freeNames ++ argumentsFreeNames arguments
  | .pipe _ head stages => head.freeNames ++ stagesFreeNames stages
  | .lambda _ parameters body =>
    body.freeNames.filter fun x => !(parameters.map (·.text)).contains x
  | .letIn _ declarations body => declarationsFreeNames declarations body.freeNames

def optionFreeNames : Option Expr → List String
  | none => []
  | some e => e.freeNames

def propertiesFreeNames : List (Property Expr) → List String
  | [] => []
  | ⟨_, value, _⟩ :: ps => value.freeNames ++ propertiesFreeNames ps

def elementsFreeNames : List (Option Expr) → List String
  | [] => []
  | e :: es => optionFreeNames e ++ elementsFreeNames es

def argumentsFreeNames : List (Argument Expr) → List String
  | [] => []
  | .value e :: as => e.freeNames ++ argumentsFreeNames as
  | .placeholder _ :: as => argumentsFreeNames as

def stagesFreeNames : List (Stage Expr) → List String
  | [] => []
  | ⟨_, body⟩ :: ss => body.freeNames ++ stagesFreeNames ss

/-- The free names of declarations around a body with these. -/
def declarationsFreeNames : List (Declaration Expr) → List String → List String
  | [], names => names
  | ⟨name, init, _⟩ :: ds, names =>
    init.freeNames ++ (declarationsFreeNames ds names).filter fun x => !([name.text].contains x)

end

end Expr

namespace NamePairs

variable {D : NamePairs} {t x : String} {ns ms bound : List String}

/-- Names that mean the same on both sides, the topic of the one side being called `t` on the
other. -/
structure Keeps (D : NamePairs) (t : String) (names : List String) : Prop where
  topic : D topicName t
  names {x : String} (hx : x ∈ names) (htopic : x ≠ topicName) : D x x

namespace Keeps

theorem mono (h : D.Keeps t ns) (hms : ms ⊆ ns) : D.Keeps t ms :=
  ⟨h.topic, fun hx => h.names (hms hx)⟩

theorem left (h : D.Keeps t (ns ++ ms)) : D.Keeps t ns := h.mono (List.subset_append_left ns ms)

theorem right (h : D.Keeps t (ns ++ ms)) : D.Keeps t ms := h.mono (List.subset_append_right ns ms)

theorem self (h : D.Keeps topicName ns) (hx : x ∈ ns) : D x x := by
  by_cases htopic : x = topicName
  · exact htopic ▸ h.topic
  · exact h.names hx htopic

theorem bind_names (h : D.Keeps t (ns.filter fun x => !bound.contains x)) {x : String}
    (hx : x ∈ ns) (htopic : x ≠ topicName) : D.bind bound bound x x :=
  bind_self bound fun hbound => h.names (List.mem_filter.2 ⟨hx, by simpa using hbound⟩) htopic

/-- Names that bind the topic themselves. -/
theorem bind_topic (h : D.Keeps t (ns.filter fun x => !bound.contains x))
    (htopic : topicName ∈ bound) : (D.bind bound bound).Keeps topicName ns :=
  ⟨bind_self bound fun hnot => absurd htopic hnot, h.bind_names⟩

/-- Names that bind neither the topic nor what it is called. -/
theorem bind (h : D.Keeps t (ns.filter fun x => !bound.contains x)) (htopic : topicName ∉ bound)
    (ht : t ∉ bound) : (D.bind bound bound).Keeps t ns :=
  ⟨bind_of_not_mem h.topic htopic ht, h.bind_names⟩

theorem bind_same (h : D.Keeps topicName (ns.filter fun x => !bound.contains x)) :
    (D.bind bound bound).Keeps topicName ns :=
  ⟨bind_self bound fun _ => h.topic, h.bind_names⟩

theorem stages (h : D.Keeps t ns) : (D.bind [topicName] [topicName]).Keeps topicName ns where
  topic := bind_self _ fun hnot => absurd (List.mem_singleton_self _) hnot
  names hx htopic := bind_self _ fun _ => h.names hx htopic

end Keeps

end NamePairs

open Code

variable {S : Comparison} {k start start' : Nat} {D : NamePairs}

namespace Expr

theorem corresponds_plainKey (e : Expr) : Corresponds S k D e.plainKey e.plainKey := by
  cases e <;> first | exact .constant | exact .undefined

/-- Whether a call is written without arguments or with placeholders is the same on both sides. -/
theorem corresponds_call {span span' : Span} {callee callee' : Expr}
    {as as' : List (Argument Expr)} (hs : S.strict → start = start' ∧ callee = callee' ∧ as = as')
    (hshape : as.map (·.isPlaceholder) = as'.map (·.isPlaceholder))
    (hcallee : ∀ {m m' : Nat}, (S.strict → m = m') →
      Corresponds S k D (callee.compile m) (callee'.compile m'))
    (harguments : ∀ {i m m' : Nat}, (S.strict → m = m') →
      CorrespondItems S k D (compileArguments as i m) (compileArguments as' i m')) :
    Corresponds S k D ((call span callee as).compile start)
      ((call span' callee' as').compile start') := by
  have hempty : as.isEmpty = as'.isEmpty := by
    have hlength := congrArg List.isEmpty hshape
    rwa [List.isEmpty_map, List.isEmpty_map] at hlength
  have hany : as.any (·.isPlaceholder) = as'.any (·.isPlaceholder) := by
    have hids := congrArg (List.any · id) hshape
    simpa only [List.any_map, Function.id_comp] using hids
  unfold compile
  rw [hempty]
  by_cases hnil : as'.isEmpty
  · rw [if_pos hnil, if_pos hnil]
    exact .callBare (fun h => by rw [(hs h).1]) (hcallee fun h => by rw [(hs h).1])
  rw [if_neg hnil, if_neg hnil, hany]
  by_cases hmissing : as'.any (·.isPlaceholder)
  · simp only [if_pos hmissing]
    refine .curry (fun h => ?_) (hcallee fun h => ?_) (harguments fun h => ?_) <;>
      (obtain ⟨rfl, rfl, rfl⟩ := hs h; rfl)
  · simp only [if_neg hmissing]
    refine .call (fun h => ?_) (hcallee fun h => ?_) (harguments fun h => ?_) <;>
      (obtain ⟨rfl, rfl, rfl⟩ := hs h; rfl)

mutual

/-- The places in the code of a tree depend only on where its listing begins. -/
theorem corresponds_compile : ∀ (e : Expr) {k start start' : Nat} {D : NamePairs},
    (S.strict → start = start') → D.Keeps topicName e.freeNames →
      Corresponds S k D (e.compile start) (e.compile start')
  | .literal .., _, _, _, _, _, _ => .constant
  | .identifier .., _, _, _, _, hs, hD =>
    .lookup (fun h => congrArg (· + 1) (hs h)) (hD.self (List.mem_singleton_self _))
  | .topic _, _, _, _, _, hs, hD => .topic (fun h => congrArg (· + 1) (hs h)) hD.topic
  | .unary _ _ argument, _, _, _, _, hs, hD =>
    .unary (fun h => by rw [hs h]) (corresponds_compile argument (fun h => by rw [hs h]) hD)
  | .binary _ _ left right, _, _, _, _, hs, hD =>
    .binary (fun h => by rw [hs h]) (corresponds_compile left (fun h => by rw [hs h]) hD.left)
      (corresponds_compile right (fun h => by rw [hs h]) hD.right)
  | .logical _ _ left right, _, _, _, _, hs, hD =>
    .logical (fun h => by rw [hs h]) (corresponds_compile left (fun h => by rw [hs h]) hD.left)
      (corresponds_compile right (fun h => by rw [hs h]) hD.right)
  | .coalesce _ left right, _, _, _, _, hs, hD =>
    .coalesce (corresponds_compile left (fun h => by rw [hs h]) hD.left)
      (corresponds_compile right (fun h => by rw [hs h]) hD.right)
  | .conditional _ test consequent alternate, _, _, _, _, hs, hD =>
    .conditional (corresponds_compile test (fun h => by rw [hs h]) hD.left)
      (corresponds_compile consequent (fun h => by rw [hs h]) hD.right.left)
      (corresponds_alternate alternate (fun h => by rw [hs h]) hD.right.right)
  | .object _ properties, _, _, _, _, hs, hD =>
    .object (corresponds_properties properties (fun h => by rw [hs h]) hD)
  | .array _ elements, _, _, _, _, hs, hD =>
    .array (corresponds_elements elements (fun h => by rw [hs h]) hD)
  | .member _ target key true _, _, _, _, _, hs, hD =>
    .property (fun h => by rw [hs h]) (corresponds_compile target (fun h => by rw [hs h]) hD.left)
      (corresponds_compile key (fun h => by rw [hs h]) hD.right)
  | .member _ target key false _, _, _, _, _, hs, hD =>
    .property (fun h => by rw [hs h]) (corresponds_compile target (fun h => by rw [hs h]) hD.left)
      (corresponds_plainKey key)
  | .call _ callee arguments, _, _, _, _, hs, hD =>
    corresponds_call (fun h => ⟨hs h, rfl, rfl⟩) rfl
      (fun h => corresponds_compile callee h hD.left)
      (fun h => corresponds_arguments arguments h hD.right)
  | .pipe _ head stages, _, _, _, _, hs, hD =>
    .pipe (fun h => by rw [hs h]) (corresponds_compile head (fun h => by rw [hs h]) hD.left)
      (corresponds_stages stages (fun h => by rw [hs h]) hD.right.stages)
  | .lambda _ parameters body, _, _, _, _, hs, hD =>
    .lambda (corresponds_compile body (fun h => by rw [hs h]) hD.bind_same)
  | .letIn _ declarations body, _, _, _, _, hs, hD =>
    corresponds_declarations declarations (fun h => by rw [hs h]) hD fun hD' =>
      corresponds_compile body (fun h => by rw [hs h]) hD'

theorem corresponds_alternate : ∀ (e : Option Expr) {k start start' : Nat} {D : NamePairs},
    (S.strict → start = start') → D.Keeps topicName (optionFreeNames e) →
      Corresponds S k D (compileAlternate e start) (compileAlternate e start')
  | none, _, _, _, _, _, _ => .undefined
  | some e, _, _, _, _, hs, hD => corresponds_compile e hs hD

theorem corresponds_properties : ∀ (ps : List (Property Expr)) {k start start' : Nat}
    {D : NamePairs}, (S.strict → start = start') → D.Keeps topicName (propertiesFreeNames ps) →
      CorrespondEntries S k D (compileProperties ps start) (compileProperties ps start')
  | [], _, _, _, _, _, _ => .nil
  | ⟨_, value, _⟩ :: ps, _, _, _, _, hs, hD =>
    .cons (corresponds_compile value (fun h => by rw [hs h]) hD.left)
      (corresponds_properties ps (fun h => by rw [hs h]) hD.right)

theorem corresponds_elements : ∀ (es : List (Option Expr)) {k start start' : Nat}
    {D : NamePairs}, (S.strict → start = start') → D.Keeps topicName (elementsFreeNames es) →
      CorrespondItems S k D (compileElements es start) (compileElements es start')
  | [], _, _, _, _, _, _ => .nil
  | none :: es, _, _, _, _, hs, hD =>
    .none (corresponds_elements es (fun h => by rw [hs h]) hD.right)
  | some e :: es, _, _, _, _, hs, hD =>
    .some (corresponds_compile e hs hD.left)
      (corresponds_elements es (fun h => by rw [hs h]) hD.right)

theorem corresponds_arguments : ∀ (as : List (Argument Expr)) {i k start start' : Nat}
    {D : NamePairs}, (S.strict → start = start') → D.Keeps topicName (argumentsFreeNames as) →
      CorrespondItems S k D (compileArguments as i start) (compileArguments as i start')
  | [], _, _, _, _, _, _, _ => .nil
  | .value e :: as, _, _, _, _, _, hs, hD =>
    .some (corresponds_compile e hs hD.left)
      (corresponds_arguments as (fun h => by rw [hs h]) hD.right)
  | .placeholder _ :: as, _, _, _, _, _, hs, hD =>
    .none (corresponds_arguments as (fun h => by rw [hs h]) hD)

theorem corresponds_stages : ∀ (ss : List (Stage Expr)) {k start start' : Nat}
    {D : NamePairs}, (S.strict → start = start') → D.Keeps topicName (stagesFreeNames ss) →
      CorrespondStages S k D (compileStages ss start) (compileStages ss start')
  | [], _, _, _, _, _, _ => .nil
  | ⟨_, body⟩ :: ss, _, _, _, _, hs, hD =>
    .cons (corresponds_compile body (fun h => by rw [hs h]) hD.left)
      (corresponds_stages ss (fun h => by rw [hs h]) hD.right)

theorem corresponds_declarations : ∀ (ds : List (Declaration Expr)) {k start start' : Nat}
    {D : NamePairs} {names : List String} {body body' : Code}, (S.strict → start = start') →
      D.Keeps topicName (declarationsFreeNames ds names) →
      (∀ {D' : NamePairs}, D'.Keeps topicName names → Corresponds S k D' body body') →
      Corresponds S k D (compileDeclarations ds start body) (compileDeclarations ds start' body')
  | [], _, _, _, _, _, _, _, _, hD, hbody => hbody hD
  | ⟨_, init, _⟩ :: ds, _, _, _, _, _, _, _, hs, hD, hbody =>
    .letIn (corresponds_compile init (fun h => by rw [hs h]) hD.left)
      (corresponds_declarations ds (fun h => by rw [hs h]) hD.right.bind_same hbody)

end

end Expr

end ExprLang
