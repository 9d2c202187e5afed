import ExprLang.Proofs.Correspondence.Topics
import ExprLang.Proofs.Shapes
import Mathlib.Data.Set.Finite.Lattice

/-!
Binding forms written as applications: a `let` as functions of its names that are applied to the
initial values, a pipe of one stage as a function of its topic that is applied to the input, and a
call with placeholders as a function of what is missing. The code of a tree in which such forms are
replaced, wherever they are, corresponds to that of the tree.
-/
namespace ExprLang

open Code

variable {S : Comparison} {D : NamePairs} {k start start' : Nat}

namespace Expr

/-- Each declaration as a function of its name that is applied to the initial value. -/
def applications : List (Declaration Expr) → Expr → Expr
  | [], body => body
  | d :: ds, body =>
    .call noSpan (.lambda noSpan [d.name] (applications ds body)) [.value d.init]

/-- A stage as a function that calls its topic `t`. -/
def stageApplication (t : String) (head stage : Expr) : Expr :=
  .call noSpan (.lambda noSpan [⟨t, noSpan⟩] (stage.withTopic t)) [.value head]

/-- The arguments that are given, each under its name. -/
def givenDeclarations : List (Argument Expr) → List String → List (Declaration Expr)
  | .value e :: as, n :: names => ⟨⟨n, noSpan⟩, e, noSpan⟩ :: givenDeclarations as names
  | .placeholder _ :: as, _ :: names => givenDeclarations as names
  | _, _ => []

/-- The callee is kept as `g`, and each argument has a name: that of one that is given is bound
around a function with those of the missing ones as parameters. -/
def speltCall (g : String) (names : List String) (callee : Expr)
    (arguments : List (Argument Expr)) : Expr :=
  .letIn noSpan (⟨⟨g, noSpan⟩, callee, noSpan⟩ :: givenDeclarations arguments names)
    (.lambda noSpan ((missingNames (arguments.map (·.value?)) names).map fun n => ⟨n, noSpan⟩)
      (.call noSpan (.identifier noSpan g) (names.map fun n => .value (.identifier noSpan n))))

/-- What a binding form is short for. -/
inductive ShortFor : Expr → Expr → Prop where
  | declarations (span : Span) (ds : List (Declaration Expr)) (body : Expr) :
    ShortFor (.letIn span ds body) (applications ds body)
  | stage (span : Span) (head : Expr) {stage : Expr} {t : String} (hfree : t ∉ stage.freeNames)
    (havoids : stage.Avoids t) :
    ShortFor (.pipe span head [⟨false, stage⟩]) (stageApplication t head stage)
  | placeholders {span : Span} {callee : Expr} {arguments : List (Argument Expr)} {g : String}
    {names : List String} (hmissing : arguments.any (·.isPlaceholder))
    (hlength : names.length = arguments.length) (hnames : (g :: names).Nodup)
    (hfresh : ∀ n ∈ g :: names, n ≠ topicName ∧ n ∉ (call span callee arguments).freeNames) :
    ShortFor (.call span callee arguments) (speltCall g names callee arguments)

/-- A tree has finitely many names that something in it binds. -/
theorem finite_not_avoids (e : Expr) : {x | ¬ e.Avoids x}.Finite := by
  have hset : {x | ¬ e.Avoids x} =
      {x | x ∈ e.binders} ∪ ⋃ c ∈ {c | c ∈ e.children}, {x | ¬ c.Avoids x} := by
    ext x
    simp only [avoids_iff (e := e), Set.mem_ofPred_eq, Set.mem_union, Set.mem_iUnion,
      not_and_or, not_not, not_forall, exists_prop]
  rw [hset]
  refine (List.finite_toSet _).union ((List.finite_toSet _).biUnion fun c hc => ?_)
  exact finite_not_avoids c
termination_by e.height
decreasing_by exact height_lt hc

/-- Every pipe of one stage that is not optional is short for an application. -/
theorem exists_shortFor_pipe (span : Span) (head stage : Expr) :
    ∃ e', ShortFor (.pipe span head [⟨false, stage⟩]) e' := by
  have hused : ({x | x ∈ stage.freeNames} ∪ {x | ¬ stage.Avoids x}).Finite :=
    (List.finite_toSet _).union stage.finite_not_avoids
  obtain ⟨t, ht⟩ := hused.exists_notMem
  obtain ⟨hfree, havoids⟩ := not_or.1 ht
  exact ⟨_, .stage span head hfree (not_not.1 havoids)⟩

/-- Every call with placeholders is short for a declaration of its parts. -/
theorem exists_shortFor_call (span : Span) (callee : Expr) {as : List (Argument Expr)}
    (hmissing : as.any (·.isPlaceholder)) : ∃ e', ShortFor (.call span callee as) e' := by
  have hused : {x | x ∈ topicName :: (call span callee as).freeNames}.Finite :=
    List.finite_toSet _
  obtain ⟨fresh, hfresh, hcard⟩ := hused.infinite_compl.exists_subset_card_eq (as.length + 1)
  have hlength : fresh.toList.length = as.length + 1 := by rw [Finset.length_toList, hcard]
  cases hnames : fresh.toList with
  | nil =>
    rw [hnames] at hlength
    cases hlength
  | cons g names =>
    rw [hnames] at hlength
    refine ⟨_, .placeholders hmissing (Nat.succ.inj hlength) (hnames ▸ fresh.nodup_toList)
      fun n hn => ?_⟩
    have hn' : n ∉ topicName :: (call span callee as).freeNames :=
      hfresh (Finset.mem_coe.2 (Finset.mem_toList.1 (hnames ▸ hn)))
    exact not_or.1 (mt List.mem_cons.2 hn')

mutual

/-- Any number of binding forms, none of them within another one, are replaced by what they are
short for. -/
inductive Rewrites : Expr → Expr → Prop where
  | same (e : Expr) : Rewrites e e
  | replaced {e e' : Expr} (h : ShortFor e e') : Rewrites e e'
  | unary {span : Span} {op : UnaryOp} {e e' : Expr} (h : Rewrites e e') :
    Rewrites (.unary span op e) (.unary span op e')
  | binary {span : Span} {op : BinaryOp} {a a' b b' : Expr} (ha : Rewrites a a')
    (hb : Rewrites b b') : Rewrites (.binary span op a b) (.binary span op a' b')
  | logical {span : Span} {op : LogicalOp} {a a' b b' : Expr} (ha : Rewrites a a')
    (hb : Rewrites b b') : Rewrites (.logical span op a b) (.logical span op a' b')
  | coalesce {span : Span} {a a' b b' : Expr} (ha : Rewrites a a') (hb : Rewrites b b') :
    Rewrites (.coalesce span a b) (.coalesce span a' b')
  | conditional {span : Span} {a a' b b' : Expr} {c c' : Option Expr} (ha : Rewrites a a')
    (hb : Rewrites b b') (hc : RewritesOption c c') :
    Rewrites (.conditional span a b c) (.conditional span a' b' c')
  | object {span : Span} {ps ps' : List (Property Expr)} (h : RewritesProperties ps ps') :
    Rewrites (.object span ps) (.object span ps')
  | array {span : Span} {es es' : List (Option Expr)} (h : RewritesElements es es') :
    Rewrites (.array span es) (.array span es')
  | property {span : Span} {a a' key : Expr} {extended : Bool} (ha : Rewrites a a') :
    Rewrites (.member span a key false extended) (.member span a' key false extended)
  | computed {span : Span} {a a' b b' : Expr} {extended : Bool} (ha : Rewrites a a')
    (hb : Rewrites b b') :
    Rewrites (.member span a b true extended) (.member span a' b' true extended)
  | call {span : Span} {e e' : Expr} {as as' : List (Argument Expr)} (h : Rewrites e e')
    (has : RewritesArguments as as') : Rewrites (.call span e as) (.call span e' as')
  | pipe {span : Span} {e e' : Expr} {ss ss' : List (Stage Expr)} (h : Rewrites e e')
    (hss : RewritesStages ss ss') : Rewrites (.pipe span e ss) (.pipe span e' ss')
  | lambda {span : Span} {ps : List Name} {e e' : Expr} (h : Rewrites e e') :
    Rewrites (.lambda span ps e) (.lambda span ps e')
  | letIn {span : Span} {ds ds' : List (Declaration Expr)} {e e' : Expr}
    (hds : RewritesDeclarations ds ds') (h : Rewrites e e') :
    Rewrites (.letIn span ds e) (.letIn span ds' e')

inductive RewritesOption : Option Expr → Option Expr → Prop where
  | none : RewritesOption none none
  | some {e e' : Expr} (h : Rewrites e e') : RewritesOption (some e) (some e')

inductive RewritesProperties : List (Property Expr) → List (Property Expr) → Prop where
  | nil : RewritesProperties [] []
  | cons {key : Key} {span : Span} {e e' : Expr} {ps ps' : List (Property Expr)} (h : Rewrites e e')
    (hps : RewritesProperties ps ps') :
    RewritesProperties (⟨key, e, span⟩ :: ps) (⟨key, e', span⟩ :: ps')

inductive RewritesElements : List (Option Expr) → List (Option Expr) → Prop where
  | nil : RewritesElements [] []
  | none {es es' : List (Option Expr)} (hes : RewritesElements es es') :
    RewritesElements (none :: es) (none :: es')
  | some {e e' : Expr} {es es' : List (Option Expr)} (h : Rewrites e e')
    (hes : RewritesElements es es') : RewritesElements (some e :: es) (some e' :: es')

inductive RewritesArguments : List (Argument Expr) → List (Argument Expr) → Prop where
  | nil : RewritesArguments [] []
  | value {e e' : Expr} {as as' : List (Argument Expr)} (h : Rewrites e e')
    (has : RewritesArguments as as') : RewritesArguments (.value e :: as) (.value e' :: as')
  | placeholder {span : Span} {as as' : List (Argument Expr)} (has : RewritesArguments as as') :
    RewritesArguments (.placeholder span :: as) (.placeholder span :: as')

inductive RewritesStages : List (Stage Expr) → List (Stage Expr) → Prop where
  | nil : RewritesStages [] []
  | cons {optional : Bool} {e e' : Expr} {ss ss' : List (Stage Expr)} (h : Rewrites e e')
    (hss : RewritesStages ss ss') : RewritesStages (⟨optional, e⟩ :: ss) (⟨optional, e'⟩ :: ss')

inductive RewritesDeclarations : List (Declaration Expr) → List (Declaration Expr) → Prop where
  | nil : RewritesDeclarations [] []
  | cons {name : Name} {span : Span} {e e' : Expr} {ds ds' : List (Declaration Expr)}
    (h : Rewrites e e') (hds : RewritesDeclarations ds ds') :
    RewritesDeclarations (⟨name, e, span⟩ :: ds) (⟨name, e', span⟩ :: ds')

end

theorem corresponds_applications (hS : ¬ S.strict) (ds : List (Declaration Expr)) (body : Expr)
    (hk : (applications ds body).height ≤ k) {last : Nat}
    (hD : D.Keeps topicName (declarationsFreeNames ds body.freeNames)) :
    Corresponds S k D (compileDeclarations ds start (body.compile last))
      ((applications ds body).compile start') := by
  induction ds generalizing k D start start' with
  | nil => exact corresponds_compile body (fun h => absurd h hS) hD
  | cons d ds ih =>
    obtain ⟨name, init, span⟩ := d
    simp only [applications, height, argumentsHeight] at hk
    obtain ⟨m, rfl⟩ : ∃ m, k = m + 1 := ⟨k - 1, by omega⟩
    exact .applied hS (corresponds_compile init (fun h => absurd h hS) hD.left)
      (ih (by omega) hD.right.bind_same)

/-- With a name for the topic that the stage does not use otherwise. -/
theorem keeps_stage {stage : Expr} {t : String} (ht : t ∉ stage.freeNames)
    (hD : D.Keeps topicName stage.freeNames) :
    (D.bind [topicName] [t]).Keeps t stage.freeNames where
  topic := by simp [NamePairs.bind, List.idxOf?_cons]
  names hx htopic := NamePairs.bind_of_not_mem (hD.names hx htopic)
    (List.mem_singleton.not.2 htopic) fun h => ht (List.mem_singleton.1 h ▸ hx)

theorem corresponds_stageApplication (hS : ¬ S.strict) {span : Span} (head : Expr) {stage : Expr}
    {t : String} (hfree : t ∉ stage.freeNames) (havoids : stage.Avoids t) (hk : k ≠ 0)
    (hD : D.Keeps topicName (pipe span head [⟨false, stage⟩]).freeNames) :
    Corresponds S k D ((pipe span head [⟨false, stage⟩]).compile start)
      ((stageApplication t head stage).compile start') := by
  obtain ⟨m, rfl⟩ := Nat.exists_eq_succ_of_ne_zero hk
  exact .piped hS (corresponds_compile head (fun h => absurd h hS) hD.left)
    (corresponds_withTopic hS stage havoids (keeps_stage hfree hD.right.left))

/-- A name that is bound only on the one side. -/
theorem keeps_pushed {names : List String} {n : String} (htopic : n ≠ topicName) (hn : n ∉ names)
    (hD : D.Keeps topicName names) : (D.bind [] [n]).Keeps topicName names where
  topic := NamePairs.bind_of_not_mem hD.topic List.not_mem_nil
    fun h => htopic (List.mem_singleton.1 h).symm
  names hx hne := NamePairs.bind_of_not_mem (hD.names hx hne) List.not_mem_nil
    fun h => hn (List.mem_singleton.1 h ▸ hx)

theorem correspondSlots_givenDeclarations (hS : ¬ S.strict) (as : List (Argument Expr))
    {names : List String} (hlength : names.length = as.length) {i : Nat} {inner : Code}
    (hfresh : ∀ n ∈ names, n ≠ topicName ∧ n ∉ argumentsFreeNames as)
    (hD : D.Keeps topicName (argumentsFreeNames as)) :
    CorrespondSlots S k D (compileArguments as i start) names inner
      (compileDeclarations (givenDeclarations as names) start' inner) := by
  induction as generalizing names D i start start' with
  | nil =>
    obtain rfl := List.length_eq_zero_iff.1 hlength
    exact .nil
  | cons a as ih =>
    obtain _ | ⟨n, names⟩ := names
    · cases hlength
    replace hlength : names.length = as.length := Nat.succ.inj hlength
    cases a with
    | value e =>
      have hrest : ∀ m ∈ n :: names, m ≠ topicName ∧ m ∉ argumentsFreeNames as := fun m hm =>
        ⟨(hfresh m hm).1, fun h => (hfresh m hm).2 (List.mem_append_right _ h)⟩
      have hn := hrest n List.mem_cons_self
      exact .given (corresponds_compile e (fun h => absurd h hS) hD.left)
        (ih hlength (fun m hm => hrest m (List.mem_cons_of_mem n hm))
          (keeps_pushed hn.1 hn.2 hD.right))
    | placeholder span =>
      exact .missing (ih hlength (fun m hm => hfresh m (List.mem_cons_of_mem n hm)) hD)

theorem missingNames_compileArguments (as : List (Argument Expr)) (names : List String)
    (i start : Nat) :
    missingNames (compileArguments as i start) names = missingNames (as.map (·.value?)) names := by
  induction as generalizing names i start with
  | nil => rfl
  | cons a as ih =>
    cases names with
    | nil => cases a <;> rfl
    | cons n names =>
      cases a with
      | value e => exact ih names (i + 1) _
      | placeholder span => exact congrArg (n :: ·) (ih names (i + 1) _)

theorem looksUp_compileArguments (names : List String) (i : Nat) :
    List.Forall₂ LooksUp names
      (compileArguments (names.map fun n => .value (.identifier noSpan n)) i start) := by
  induction names generalizing i start with
  | nil => exact .nil
  | cons n names ih => exact .cons .lookup (ih (i + 1))

theorem compile_placeholders (span : Span) (callee : Expr) {as : List (Argument Expr)}
    (hmissing : as.any (·.isPlaceholder)) (start : Nat) :
    ∃ s m n, (call span callee as).compile start =
      .curry s (callee.compile m) (compileArguments as 0 n) := by
  cases as with
  | nil => cases hmissing
  | cons a as =>
    simp only [compile, List.isEmpty_cons, hmissing, Bool.false_eq_true, if_false, if_true]
    exact ⟨_, _, _, rfl⟩

theorem compile_speltCall (g : String) {names : List String} (hnames : names ≠ []) (callee : Expr)
    (as : List (Argument Expr)) (start : Nat) :
    ∃ s t l m n, (speltCall g names callee as).compile start =
      .letIn g (callee.compile l) (compileDeclarations (givenDeclarations as names) m
        (.lambda (missingNames (as.map (·.value?)) names) (.call s (.lookup t g)
          (compileArguments (names.map fun n => .value (.identifier noSpan n)) 0 n)))) := by
  have hvalues : (names.map fun n => (.value (.identifier noSpan n) : Argument Expr)).isEmpty =
      false := by
    rw [List.isEmpty_map, List.isEmpty_eq_false_iff]
    exact hnames
  have hgiven : (names.map fun n => (.value (.identifier noSpan n) : Argument Expr)).any
      (·.isPlaceholder) = false := by
    rw [List.any_map, List.any_eq_false]
    exact fun n _ => Bool.false_ne_true
  simp only [speltCall, compile, compileDeclarations, hvalues, hgiven, Bool.false_eq_true, if_false,
    List.map_map, Function.comp_def, List.map_id']
  exact ⟨_, _, _, _, _, rfl⟩

theorem corresponds_speltCall (hS : ¬ S.strict) {span : Span} {callee : Expr}
    {as : List (Argument Expr)} {g : String} {names : List String}
    (hmissing : as.any (·.isPlaceholder)) (hlength : names.length = as.length)
    (hnames : (g :: names).Nodup)
    (hfresh : ∀ n ∈ g :: names, n ≠ topicName ∧ n ∉ (call span callee as).freeNames)
    (hD : D.Keeps topicName (call span callee as).freeNames) :
    Corresponds S k D ((call span callee as).compile start)
      ((speltCall g names callee as).compile start') := by
  have hnonempty : names ≠ [] := by
    rintro rfl
    obtain rfl := List.length_eq_zero_iff.1 hlength.symm
    cases hmissing
  have hfresh' : ∀ n ∈ g :: names, n ≠ topicName ∧ n ∉ argumentsFreeNames as := fun n hn =>
    ⟨(hfresh n hn).1, fun h => (hfresh n hn).2 (List.mem_append_right _ h)⟩
  obtain ⟨hg, hrest⟩ := List.forall_mem_cons.1 hfresh'
  obtain ⟨s, m, n, hcall⟩ := compile_placeholders span callee hmissing start
  obtain ⟨s', t, l, m', n', hspelt⟩ := compile_speltCall g hnonempty callee as start'
  rw [hcall, hspelt, ← missingNames_compileArguments as names 0 n]
  exact .spelt hS hnames (corresponds_compile callee (fun h => absurd h hS) hD.left)
    (looksUp_compileArguments names 0)
    (correspondSlots_givenDeclarations hS as hlength hrest (keeps_pushed hg.1 hg.2 hD.right))

theorem ShortFor.corresponds (hS : ¬ S.strict) {e e' : Expr} (h : ShortFor e e')
    (hk : e'.height ≤ k) (hD : D.Keeps topicName e.freeNames) :
    Corresponds S k D (e.compile start) (e'.compile start') := by
  cases h with
  | declarations span ds body => exact corresponds_applications hS ds body hk hD
  | stage span head hfree havoids =>
    refine corresponds_stageApplication hS head hfree havoids ?_ hD
    rintro rfl
    cases hk
  | placeholders hmissing hlength hnames hfresh =>
    exact corresponds_speltCall hS hmissing hlength hnames hfresh hD

theorem RewritesArguments.shape {as as' : List (Argument Expr)} :
    RewritesArguments as as' → as.map (·.isPlaceholder) = as'.map (·.isPlaceholder)
  | .nil => rfl
  | .value _ has => congrArg (_ :: ·) has.shape
  | .placeholder has => congrArg (_ :: ·) has.shape

mutual

theorem Rewrites.corresponds (hS : ¬ S.strict) {e e' : Expr} : Rewrites e e' →
    ∀ {k start start' : Nat} {D : NamePairs}, e'.height ≤ k → k ≤ S.slack →
      D.Keeps topicName e.freeNames → Corresponds S k D (e.compile start) (e'.compile start')
  | .same e, _, _, _, _, _, _, hD => corresponds_compile e (fun h => absurd h hS) hD
  | .replaced h, _, _, _, _, hk, _, hD => h.corresponds hS hk hD
  | .unary h, _, _, _, _, hk, hslack, hD =>
    .unary (fun h => absurd h hS) (h.corresponds hS (Nat.le_of_succ_le hk) hslack hD)
  | .binary ha hb, _, _, _, _, hk, hslack, hD => by
    rw [height] at hk
    exact .binary (fun h => absurd h hS) (ha.corresponds hS (by omega) hslack hD.left)
      (hb.corresponds hS (by omega) hslack hD.right)
  | .logical ha hb, _, _, _, _, hk, hslack, hD => by
    rw [height] at hk
    exact .logical (fun h => absurd h hS) (ha.corresponds hS (by omega) hslack hD.left)
      (hb.corresponds hS (by omega) hslack hD.right)
  | .coalesce ha hb, _, _, _, _, hk, hslack, hD => by
    rw [height] at hk
    exact .coalesce (ha.corresponds hS (by omega) hslack hD.left)
      (hb.corresponds hS (by omega) hslack hD.right)
  | .conditional ha hb hc, _, _, _, _, hk, hslack, hD => by
    rw [height] at hk
    exact .conditional (ha.corresponds hS (by omega) hslack hD.left)
      (hb.corresponds hS (by omega) hslack hD.right.left)
      (hc.corresponds hS (by omega) hslack hD.right.right)
  | .object h, _, _, _, _, hk, hslack, hD =>
    .object (h.corresponds hS (Nat.le_of_succ_le hk) hslack hD)
  | .array h, _, _, _, _, hk, hslack, hD =>
    .array (h.corresponds hS (Nat.le_of_succ_le hk) hslack hD)
  | .property ha, _, _, _, _, hk, hslack, hD => by
    rw [height] at hk
    exact .property (fun h => absurd h hS) (ha.corresponds hS (by omega) hslack hD.left)
      (corresponds_plainKey _)
  | .computed ha hb, _, _, _, _, hk, hslack, hD => by
    rw [height] at hk
    exact .property (fun h => absurd h hS) (ha.corresponds hS (by omega) hslack hD.left)
      (hb.corresponds hS (by omega) hslack hD.right)
  | .call h has, _, _, _, _, hk, hslack, hD => by
    rw [height] at hk
    exact corresponds_call (fun h => absurd h hS) has.shape
      (fun _ => h.corresponds hS (by omega) hslack hD.left)
      (fun _ => has.corresponds hS (by omega) hslack hD.right)
  | .pipe h hss, _, _, _, _, hk, hslack, hD => by
    rw [height] at hk
    exact .pipe (fun h => absurd h hS) (h.corresponds hS (by omega) hslack hD.left)
      (hss.corresponds hS (by omega) hslack hD.right.stages)
  -- The body runs in calls of its own.
  | .lambda h, _, _, _, _, hk, hslack, hD =>
    .lambda (h.corresponds hS (Nat.le_trans (Nat.le_of_succ_le hk) hslack) (Nat.le_refl _)
      hD.bind_same)
  | .letIn hds h, _, _, _, _, hk, hslack, hD => by
    rw [height] at hk
    exact hds.corresponds hS (by omega) hslack hD fun hD' =>
      h.corresponds hS (by omega) hslack hD'

theorem RewritesOption.corresponds (hS : ¬ S.strict) {e e' : Option Expr} : RewritesOption e e' →
    ∀ {k start start' : Nat} {D : NamePairs}, optionHeight e' ≤ k → k ≤ S.slack →
      D.Keeps topicName (optionFreeNames e) →
      Corresponds S k D (compileAlternate e start) (compileAlternate e' start')
  | .none, _, _, _, _, _, _, _ => .undefined
  | .some h, _, _, _, _, hk, hslack, hD => h.corresponds hS hk hslack hD

theorem RewritesProperties.corresponds (hS : ¬ S.strict) {ps ps' : List (Property Expr)} :
    RewritesProperties ps ps' → ∀ {k start start' : Nat} {D : NamePairs},
      propertiesHeight ps' ≤ k → k ≤ S.slack → D.Keeps topicName (propertiesFreeNames ps) →
      CorrespondEntries S k D (compileProperties ps start) (compileProperties ps' start')
  | .nil, _, _, _, _, _, _, _ => .nil
  | .cons h hps, _, _, _, _, hk, hslack, hD =>
    .cons (h.corresponds hS (Nat.max_le.1 hk).1 hslack hD.left)
      (hps.corresponds hS (Nat.max_le.1 hk).2 hslack hD.right)

theorem RewritesElements.corresponds (hS : ¬ S.strict) {es es' : List (Option Expr)} :
    RewritesElements es es' → ∀ {k start start' : Nat} {D : NamePairs},
      elementsHeight es' ≤ k → k ≤ S.slack → D.Keeps topicName (elementsFreeNames es) →
      CorrespondItems S k D (compileElements es start) (compileElements es' start')
  | .nil, _, _, _, _, _, _, _ => .nil
  | .none hes, _, _, _, _, hk, hslack, hD =>
    .none (hes.corresponds hS (Nat.max_le.1 hk).2 hslack hD.right)
  | .some h hes, _, _, _, _, hk, hslack, hD =>
    .some (h.corresponds hS (Nat.max_le.1 hk).1 hslack hD.left)
      (hes.corresponds hS (Nat.max_le.1 hk).2 hslack hD.right)

theorem RewritesArguments.corresponds (hS : ¬ S.strict) {as as' : List (Argument Expr)} :
    RewritesArguments as as' → ∀ {i k start start' : Nat} {D : NamePairs},
      argumentsHeight as' ≤ k → k ≤ S.slack → D.Keeps topicName (argumentsFreeNames as) →
      CorrespondItems S k D (compileArguments as i start) (compileArguments as' i start')
  | .nil, _, _, _, _, _, _, _, _ => .nil
  | .value h has, _, _, _, _, _, hk, hslack, hD =>
    .some (h.corresponds hS (Nat.max_le.1 hk).1 hslack hD.left)
      (has.corresponds hS (Nat.max_le.1 hk).2 hslack hD.right)
  | .placeholder has, _, _, _, _, _, hk, hslack, hD => .none (has.corresponds hS hk hslack hD)

theorem RewritesStages.corresponds (hS : ¬ S.strict) {ss ss' : List (Stage Expr)} :
    RewritesStages ss ss' → ∀ {k start start' : Nat} {D : NamePairs},
      stagesHeight ss' ≤ k → k ≤ S.slack → D.Keeps topicName (stagesFreeNames ss) →
      CorrespondStages S k D (compileStages ss start) (compileStages ss' start')
  | .nil, _, _, _, _, _, _, _ => .nil
  | .cons h hss, _, _, _, _, hk, hslack, hD =>
    .cons (h.corresponds hS (Nat.max_le.1 hk).1 hslack hD.left)
      (hss.corresponds hS (Nat.max_le.1 hk).2 hslack hD.right)

theorem RewritesDeclarations.corresponds (hS : ¬ S.strict) {ds ds' : List (Declaration Expr)} :
    RewritesDeclarations ds ds' → ∀ {k start start' : Nat} {D : NamePairs} {names : List String}
      {body body' : Code}, declarationsHeight ds' ≤ k → k ≤ S.slack →
      D.Keeps topicName (declarationsFreeNames ds names) →
      (∀ {D' : NamePairs}, D'.Keeps topicName names → Corresponds S k D' body body') →
      Corresponds S k D (compileDeclarations ds start body) (compileDeclarations ds' start' body')
  | .nil, _, _, _, _, _, _, _, _, _, hD, hbody => hbody hD
  | .cons h hds, _, _, _, _, _, _, _, hk, hslack, hD, hbody =>
    .letIn (h.corresponds hS (Nat.max_le.1 hk).1 hslack hD.left)
      (hds.corresponds hS (Nat.max_le.1 hk).2 hslack hD.right.bind_same hbody)

end

end Expr

end ExprLang
