import ExprLang.Code
import ExprLang.Proofs.Shapes

/-!
Trees without their spans have the same listing and the same code.
-/
namespace ExprLang

namespace Fragment

variable {fs gs : List Fragment}

/-- How long a stretch of a listing is depends only on its text. -/
theorem size_congr (h : fs.map (·.text) = gs.map (·.text)) : size fs = size gs := by
  induction fs generalizing gs with
  | nil =>
    cases gs with
    | nil => rfl
    | cons g gs => cases h
  | cons f fs ih =>
    cases gs with
    | nil => cases h
    | cons g gs =>
      obtain ⟨hf, hfs⟩ := List.cons_eq_cons.1 h
      have htext : f.text = g.text := hf
      rw [size, size, ih hfs, htext]

end Fragment

open Listing

namespace Expr

theorem isEmpty_eraseArguments (as : List (Argument Expr)) :
    (eraseArguments as).isEmpty = as.isEmpty := by
  rw [eraseArguments_eq_map, List.isEmpty_map]

theorem isPlaceholder_eraseArguments (as : List (Argument Expr)) :
    (eraseArguments as).map (·.isPlaceholder) = as.map (·.isPlaceholder) := by
  rw [eraseArguments_eq_map, List.map_map]
  exact List.map_congr_left fun a _ => by cases a <;> rfl

theorem any_eraseArguments (as : List (Argument Expr)) :
    (eraseArguments as).any (·.isPlaceholder) = as.any (·.isPlaceholder) := by
  have h := congrArg (List.any · id) (isPlaceholder_eraseArguments as)
  simpa only [List.any_map, Function.id_comp] using h

theorem placeholders_eraseArguments (as : List (Argument Expr)) (i : Nat) :
    placeholders i (eraseArguments as) = placeholders i as := by
  induction as generalizing i with
  | nil => rfl
  | cons a as ih => cases a <;> simp only [eraseArguments, placeholders, ih]

theorem curryHead_eraseArguments (as : List (Argument Expr)) :
    curryHead (eraseArguments as) = curryHead as := by
  unfold curryHead
  rw [placeholders_eraseArguments]

theorem lambdaClose_eraseSpan (ps : List Name) :
    lambdaClose (ps.map (·.eraseSpan)) = lambdaClose ps := by
  unfold lambdaClose
  rw [List.map_map]
  simp only [Function.comp_def, Name.eraseSpan]

theorem text_eraseSpan (k : Key) : k.eraseSpan.text = k.text := by
  cases k <;> simp only [Key.eraseSpan, Key.text, Name.eraseSpan]

theorem texts_separator {last : Bool} (span span' : Span) :
    (if last then [] else [(⟨[','], span⟩ : Fragment)]).map (·.text) =
      (if last then [] else [(⟨[','], span'⟩ : Fragment)]).map (·.text) := by
  cases last <;> rfl

theorem plainKey_eraseSpans (e : Expr) : e.eraseSpans.plainKey = e.plainKey := by cases e <;> rfl

theorem texts_plainKeyLayout (e : Expr) :
    e.eraseSpans.plainKeyLayout.map (·.text) = e.plainKeyLayout.map (·.text) := by
  cases e <;> rfl

mutual

theorem texts_layout : ∀ e : Expr, e.eraseSpans.layout.map (·.text) = e.layout.map (·.text)
  | .literal .. | .identifier .. | .topic _ => rfl
  | .unary _ _ argument => by simp [eraseSpans, layout, texts_layout argument]
  | .binary _ _ left right | .logical _ _ left right | .coalesce _ left right => by
    simp [eraseSpans, layout, texts_layout left, texts_layout right]
  | .conditional span test consequent alternate => by
    simp [eraseSpans, layout, texts_layout test, texts_layout consequent,
      texts_alternateLayout noSpan span alternate]
  | .object span properties => by
    simp [eraseSpans, layout, texts_propertiesLayout noSpan span properties]
  | .array span elements => by
    simp [eraseSpans, layout, texts_elementsLayout noSpan span elements]
  | .member _ target key true _ => by
    simp [eraseSpans, layout, texts_layout target, texts_layout key]
  | .member _ target key false _ => by
    simp [eraseSpans, layout, texts_layout target, texts_plainKeyLayout key]
  | .call span callee arguments => by
    have hcallee := texts_layout callee
    have harguments := texts_argumentsLayout noSpan span 0 arguments
    simp only [eraseSpans, layout, isEmpty_eraseArguments, any_eraseArguments,
      curryHead_eraseArguments]
    split
    · simp [hcallee, Fragment.ofString]
    · split <;> simp [hcallee, harguments]
  | .pipe _ head stages => by
    simp [eraseSpans, layout, texts_layout head, texts_stagesLayout stages]
  | .lambda _ parameters body => by
    have hbody := texts_layout body
    simp only [eraseSpans, layout, List.isEmpty_map, List.length_map]
    split
    · simp [hbody]
    · simp [hbody, lambdaClose_eraseSpan]
  | .letIn _ declarations body => by
    simp [eraseSpans, layout, texts_layout body, texts_declarationsLayout declarations]

theorem texts_alternateLayout (span span' : Span) : ∀ e : Option Expr,
    (alternateLayout span (eraseOption e)).map (·.text) = (alternateLayout span' e).map (·.text)
  | none => by simp only [eraseOption, alternateLayout, Fragment.ofString, List.map_cons]
  | some e => texts_layout e

theorem texts_propertiesLayout (span span' : Span) : ∀ ps : List (Property Expr),
    (propertiesLayout span (eraseProperties ps)).map (·.text) =
      (propertiesLayout span' ps).map (·.text)
  | [] => rfl
  | ⟨key, value, _⟩ :: ps => by
    have hvalue := texts_layout value
    have hrest := texts_propertiesLayout span span' ps
    have hempty : (eraseProperties ps).isEmpty = ps.isEmpty := by cases ps <;> rfl
    simp only [eraseProperties, propertiesLayout, List.map_append, List.map_cons, hvalue, hrest,
      hempty, text_eraseSpan, texts_separator span span']

theorem texts_elementLayout : ∀ e : Option Expr,
    (elementLayout (eraseOption e)).map (·.text) = (elementLayout e).map (·.text)
  | none => rfl
  | some e => texts_layout e

theorem texts_elementsLayout (span span' : Span) : ∀ es : List (Option Expr),
    (elementsLayout span (eraseElements es)).map (·.text) = (elementsLayout span' es).map (·.text)
  | [] => rfl
  | e :: es => by
    have helement := texts_elementLayout e
    have hrest := texts_elementsLayout span span' es
    have hempty : (eraseElements es).isEmpty = es.isEmpty := by cases es <;> rfl
    simp only [eraseElements, elementsLayout, List.map_append, helement, hrest, hempty,
      texts_separator span span']

theorem texts_argumentsLayout (span span' : Span) : ∀ (i : Nat) (as : List (Argument Expr)),
    (argumentsLayout span i (eraseArguments as)).map (·.text) =
      (argumentsLayout span' i as).map (·.text)
  | _, [] => rfl
  | i, .value e :: as => by
    have he := texts_layout e
    have hrest := texts_argumentsLayout span span' (i + 1) as
    simp only [eraseArguments, argumentsLayout, argumentLayout, List.map_append, he, hrest,
      isEmpty_eraseArguments, texts_separator span span']
  | i, .placeholder _ :: as => by
    have hrest := texts_argumentsLayout span span' (i + 1) as
    simp only [eraseArguments, argumentsLayout, argumentLayout, List.map_append, List.map_cons,
      hrest, isEmpty_eraseArguments, texts_separator span span']

theorem texts_stagesLayout : ∀ ss : List (Stage Expr),
    (stagesLayout (eraseStages ss)).map (·.text) = (stagesLayout ss).map (·.text)
  | [] => rfl
  | ⟨_, body⟩ :: ss => by
    have hbody := texts_layout body
    have hrest := texts_stagesLayout ss
    have hempty : (eraseStages ss).isEmpty = ss.isEmpty := by cases ss <;> rfl
    simp only [eraseStages, stagesLayout, List.map_append, List.map_cons, hbody, hrest, hempty,
      texts_separator body.eraseSpans.span body.span]

theorem texts_declarationsLayout : ∀ ds : List (Declaration Expr),
    (declarationsLayout (eraseDeclarations ds)).map (·.text) =
      (declarationsLayout ds).map (·.text)
  | [] => rfl
  | ⟨_, init, _⟩ :: ds => by
    simp [eraseDeclarations, declarationsLayout, texts_layout init, texts_declarationsLayout ds,
      Name.eraseSpan]

end

theorem size_layout_eraseSpans (e : Expr) :
    Fragment.size e.eraseSpans.layout = Fragment.size e.layout :=
  Fragment.size_congr (texts_layout e)

theorem width_eraseSpans (e : Expr) : e.eraseSpans.width = e.width :=
  Fragment.size_congr (texts_layout e)

mutual

/-- Spans play no part in the code of a tree. -/
theorem compile_eraseSpans : ∀ (e : Expr) (start : Nat),
    e.eraseSpans.compile start = e.compile start
  | .literal .., _ | .identifier .., _ | .topic _, _ => rfl
  | .unary _ _ argument, _ => by
    simp only [eraseSpans, compile, compile_eraseSpans argument]
  | .binary _ _ left right, _ | .logical _ _ left right, _ | .coalesce _ left right, _ => by
    simp only [eraseSpans, compile, compile_eraseSpans left, compile_eraseSpans right,
      width_eraseSpans]
  | .conditional _ test consequent alternate, _ => by
    simp only [eraseSpans, compile, compile_eraseSpans test, compile_eraseSpans consequent,
      compileAlternate_erase alternate, width_eraseSpans]
  | .object _ properties, _ => by
    simp only [eraseSpans, compile, compileProperties_erase properties]
  | .array _ elements, _ => by simp only [eraseSpans, compile, compileElements_erase elements]
  | .member _ target key _ _, _ => by
    simp only [eraseSpans, compile, compile_eraseSpans target, compile_eraseSpans key,
      width_eraseSpans, plainKey_eraseSpans]
  | .call _ callee arguments, _ => by
    simp only [eraseSpans, compile, compile_eraseSpans callee, compileArguments_erase arguments,
      width_eraseSpans, isEmpty_eraseArguments, any_eraseArguments, curryHead_eraseArguments]
  | .pipe _ head stages, _ => by
    simp only [eraseSpans, compile, compile_eraseSpans head, compileStages_erase stages,
      width_eraseSpans]
  | .lambda _ parameters body, _ => by
    simp only [eraseSpans, compile, compile_eraseSpans body, List.isEmpty_map, List.length_map,
      List.map_map, Function.comp_def, Name.eraseSpan]
  | .letIn _ declarations body, _ => by
    simp only [eraseSpans, compile, compile_eraseSpans body,
      Fragment.size_congr (texts_declarationsLayout declarations),
      compileDeclarations_erase declarations]

theorem compileAlternate_erase : ∀ (e : Option Expr) (start : Nat),
    compileAlternate (eraseOption e) start = compileAlternate e start
  | none, _ => rfl
  | some e, start => compile_eraseSpans e start

theorem compileProperties_erase : ∀ (ps : List (Property Expr)) (start : Nat),
    compileProperties (eraseProperties ps) start = compileProperties ps start
  | [], _ => rfl
  | ⟨_, value, _⟩ :: ps, _ => by
    simp only [eraseProperties, compileProperties, text_eraseSpan, compile_eraseSpans value,
      width_eraseSpans, compileProperties_erase ps]

theorem compileElements_erase : ∀ (es : List (Option Expr)) (start : Nat),
    compileElements (eraseElements es) start = compileElements es start
  | [], _ => rfl
  | none :: es, _ => by
    simp only [eraseElements, eraseOption, compileElements, compileElement, elementLayout,
      compileElements_erase es]
  | some e :: es, _ => by
    simp only [eraseElements, eraseOption, compileElements, compileElement, elementLayout,
      compile_eraseSpans e, size_layout_eraseSpans, compileElements_erase es]

theorem compileArguments_erase : ∀ (as : List (Argument Expr)) (i start : Nat),
    compileArguments (eraseArguments as) i start = compileArguments as i start
  | [], _, _ => rfl
  | .value e :: as, _, _ => by
    simp only [eraseArguments, compileArguments, compileArgument, argumentLayout,
      compile_eraseSpans e, size_layout_eraseSpans, compileArguments_erase as]
  | .placeholder _ :: as, _, _ => by
    simp only [eraseArguments, compileArguments, compileArgument, argumentLayout, Fragment.size,
      compileArguments_erase as]

theorem compileStages_erase : ∀ (ss : List (Stage Expr)) (start : Nat),
    compileStages (eraseStages ss) start = compileStages ss start
  | [], _ => rfl
  | ⟨_, body⟩ :: ss, _ => by
    simp only [eraseStages, compileStages, compile_eraseSpans body, width_eraseSpans,
      compileStages_erase ss]

theorem compileDeclarations_erase : ∀ (ds : List (Declaration Expr)) (start : Nat) (body : Code),
    compileDeclarations (eraseDeclarations ds) start body = compileDeclarations ds start body
  | [], _, _ => rfl
  | ⟨_, init, _⟩ :: ds, _, _ => by
    simp only [eraseDeclarations, compileDeclarations, Name.eraseSpan, compile_eraseSpans init,
      width_eraseSpans, compileDeclarations_erase ds]

end

end Expr

end ExprLang
