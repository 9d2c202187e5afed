import ExprLang.Expr.Shape

/-!
Trees up to their spans. Spans play no part in the height of a tree, and a tree is refused as too
high only if it is higher than the limit.
-/
namespace ExprLang

def Property.eraseSpans (p : Property Expr) : Property Expr :=
  ⟨p.key.eraseSpan, p.value.eraseSpans, noSpan⟩

def Argument.eraseSpans : Argument Expr → Argument Expr
  | .value e => .value e.eraseSpans
  | .placeholder _ => .placeholder noSpan

def Stage.eraseSpans (s : Stage Expr) : Stage Expr := ⟨s.optional, s.body.eraseSpans⟩

def Declaration.eraseSpans (d : Declaration Expr) : Declaration Expr :=
  ⟨d.name.eraseSpan, d.init.eraseSpans, noSpan⟩

namespace Expr

theorem eraseOption_eq_map (e : Option Expr) : eraseOption e = e.map eraseSpans := by
  cases e <;> rfl

theorem eraseProperties_eq_map (ps : List (Property Expr)) :
    eraseProperties ps = ps.map Property.eraseSpans := by
  induction ps with
  | nil => rfl
  | cons p ps ih => rw [eraseProperties, ih, List.map_cons, Property.eraseSpans]

theorem eraseElements_eq_map (es : List (Option Expr)) :
    eraseElements es = es.map (Option.map eraseSpans) := by
  induction es with
  | nil => rfl
  | cons e es ih => rw [eraseElements, ih, eraseOption_eq_map, List.map_cons]

theorem eraseArguments_eq_map (as : List (Argument Expr)) :
    eraseArguments as = as.map Argument.eraseSpans := by
  induction as with
  | nil => rfl
  | cons a as ih => cases a <;> rw [eraseArguments, ih, List.map_cons, Argument.eraseSpans]

theorem eraseStages_eq_map (ss : List (Stage Expr)) :
    eraseStages ss = ss.map Stage.eraseSpans := by
  induction ss with
  | nil => rfl
  | cons s ss ih => rw [eraseStages, ih, List.map_cons, Stage.eraseSpans]

theorem eraseDeclarations_eq_map (ds : List (Declaration Expr)) :
    eraseDeclarations ds = ds.map Declaration.eraseSpans := by
  induction ds with
  | nil => rfl
  | cons d ds ih => rw [eraseDeclarations, ih, List.map_cons, Declaration.eraseSpans]

theorem children_eraseSpans (e : Expr) : e.eraseSpans.children = e.children.map eraseSpans := by
  cases e with
  | conditional span test consequent alternate => cases alternate <;> rfl
  | object span ps =>
    simp [eraseSpans, children, eraseProperties_eq_map, Property.eraseSpans, Function.comp_def]
  | array span es =>
    simp [eraseSpans, children, eraseElements_eq_map, List.filterMap_map, List.map_filterMap]
  | call span callee as =>
    have hvalue : (fun a : Argument Expr => a.value?) ∘ Argument.eraseSpans =
        fun a => a.value?.map eraseSpans := by
      funext a
      cases a <;> rfl
    have hvalues : (as.map Argument.eraseSpans).filterMap (·.value?) =
        (as.filterMap (·.value?)).map eraseSpans := by
      rw [List.filterMap_map, hvalue, List.map_filterMap]
    rw [eraseSpans, eraseArguments_eq_map, children, hvalues, children, List.map_cons]
  | pipe span head ss =>
    simp [eraseSpans, children, eraseStages_eq_map, Stage.eraseSpans, Function.comp_def]
  | letIn span ds body =>
    simp [eraseSpans, children, eraseDeclarations_eq_map, Declaration.eraseSpans,
      Function.comp_def]
  | _ => rfl

/-- The height of the highest of several trees. -/
def highest (es : List Expr) : Nat := (es.map height).foldr max 0

theorem highest_cons (e : Expr) (es : List Expr) : highest (e :: es) = max e.height (highest es) :=
  rfl

theorem height_le_highest {e : Expr} {es : List Expr} (h : e ∈ es) : e.height ≤ highest es := by
  induction es with
  | nil => cases h
  | cons d es ih =>
    rw [highest_cons]
    rcases List.mem_cons.1 h with rfl | h
    · exact Nat.le_max_left _ _
    · exact Nat.le_trans (ih h) (Nat.le_max_right _ _)

theorem propertiesHeight_eq (ps : List (Property Expr)) :
    propertiesHeight ps = highest (ps.map (·.value)) := by
  induction ps with
  | nil => rfl
  | cons p ps ih => rw [propertiesHeight, ih, List.map_cons, highest_cons]

theorem elementsHeight_eq (es : List (Option Expr)) :
    elementsHeight es = highest (es.filterMap id) := by
  induction es with
  | nil => rfl
  | cons e es ih =>
    cases e with
    | none => rw [elementsHeight, ih, optionHeight, Nat.zero_max, List.filterMap_cons_none rfl]
    | some e =>
      rw [elementsHeight, ih, optionHeight]
      rfl

theorem argumentsHeight_eq (as : List (Argument Expr)) :
    argumentsHeight as = highest (as.filterMap (·.value?)) := by
  induction as with
  | nil => rfl
  | cons a as ih =>
    cases a with
    | value e =>
      rw [argumentsHeight, ih]
      rfl
    | placeholder span => rw [argumentsHeight, ih, List.filterMap_cons_none rfl]

theorem stagesHeight_eq (ss : List (Stage Expr)) :
    stagesHeight ss = highest (ss.map (·.body)) := by
  induction ss with
  | nil => rfl
  | cons s ss ih => rw [stagesHeight, ih, List.map_cons, highest_cons]

theorem highest_append_singleton (es : List Expr) (e : Expr) :
    highest (es ++ [e]) = max (highest es) e.height := by
  induction es with
  | nil => rw [List.nil_append, highest_cons, Nat.max_comm]
  | cons d es ih => rw [List.cons_append, highest_cons, ih, highest_cons, Nat.max_assoc]

theorem declarationsHeight_eq (ds : List (Declaration Expr)) :
    declarationsHeight ds = highest (ds.map (·.init)) := by
  induction ds with
  | nil => rfl
  | cons d ds ih => rw [declarationsHeight, ih, List.map_cons, highest_cons]

theorem height_eq (e : Expr) : e.height = highest e.children + 1 := by
  cases e with
  | conditional span test consequent alternate =>
    cases alternate <;> simp [height, optionHeight, children, highest, Nat.max_assoc]
  | object span ps => rw [height, propertiesHeight_eq, children]
  | array span es => rw [height, elementsHeight_eq, children]
  | call span callee as => rw [height, argumentsHeight_eq, children, highest_cons]
  | pipe span head ss => rw [height, stagesHeight_eq, children, highest_cons]
  | letIn span ds body =>
    rw [height, declarationsHeight_eq, children, highest_append_singleton]
  | _ => simp [height, children, highest]

theorem height_lt {c e : Expr} (h : c ∈ e.children) : c.height < e.height := by
  rw [height_eq e]
  exact Nat.lt_succ_of_le (height_le_highest h)

theorem height_eraseSpans (e : Expr) : e.eraseSpans.height = e.height := by
  have hchildren : (e.children.map eraseSpans).map height = e.children.map height := by
    rw [List.map_map]
    exact List.map_congr_left fun c hc => height_eraseSpans c
  rw [height_eq, height_eq e, children_eraseSpans, highest, hchildren, highest]
termination_by e.height
decreasing_by exact height_lt hc

theorem deeperThan?_eq_none {limit : Nat} {e : Expr} (h : e.height ≤ limit) :
    e.deeperThan? limit = none := by
  induction limit generalizing e with
  | zero =>
    rw [height_eq] at h
    exact absurd h (Nat.not_succ_le_zero _)
  | succ limit ih =>
    rw [deeperThan?, List.findSome?_eq_none_iff]
    intro c hc
    have hlower : c.height < e.height := height_lt hc
    exact ih (by omega)

end Expr

end ExprLang
