import ExprLang.Code

/-!
Listings as texts: what each node writes around the texts of its children. Lists are written item
by item, with commas in between.
-/
namespace ExprLang

open Listing

namespace Fragment

@[simp] theorem join_nil : join [] = [] := rfl

@[simp] theorem join_cons (f : Fragment) (fs : List Fragment) :
    join (f :: fs) = f.text ++ join fs :=
  List.flatMap_cons

@[simp] theorem join_append (fs gs : List Fragment) : join (fs ++ gs) = join fs ++ join gs :=
  List.flatMap_append

theorem size_eq_length_join (fs : List Fragment) : size fs = (join fs).length := by
  induction fs with
  | nil => rfl
  | cons f fs ih => rw [size, ih, join_cons, List.length_append]

end Fragment

open Fragment

namespace Expr

def text (e : Expr) : List Char := join e.layout

theorem width_eq (e : Expr) : e.width = e.text.length := size_eq_length_join _

def alternateText (e : Option Expr) : List Char := e.elim "undefined".toList text

def elementText (e : Option Expr) : List Char := e.elim [] text

def propertyText (p : Property Expr) : List Char := quoted p.key.text ++ ':' :: p.value.text

def keyText (computed : Bool) (key : Expr) : List Char :=
  if computed then key.text else join key.plainKeyLayout

/-- An argument at its place among the others. -/
def argumentText : Argument Expr × Nat → List Char
  | (.value e, _) => e.text
  | (.placeholder _, i) => numbered 'a' i

def stageText (s : Stage Expr) : List Char := stageHead s.optional ++ (s.body.text ++ stageClose)

def declarationText (d : Declaration Expr) : List Char :=
  valueHead ++ (d.init.text ++ (statementClose ++ (nameHead ++
    (quoted d.name.text ++ statementClose))))

theorem join_alternateLayout (span : Span) (e : Option Expr) :
    join (alternateLayout span e) = alternateText e := by
  cases e with
  | none =>
    simp only [alternateLayout, join_cons, join_nil, List.append_nil, ofString, alternateText,
      Option.elim_none]
  | some e => rfl

theorem join_elementLayout (e : Option Expr) : join (elementLayout e) = elementText e := by
  cases e <;> rfl

theorem join_argumentLayout (i : Nat) (a : Argument Expr) :
    join (argumentLayout i a) = argumentText (a, i) := by
  cases a with
  | value e => rfl
  | placeholder place => simp [argumentLayout, argumentText]

theorem join_elementsLayout (span : Span) (es : List (Option Expr)) :
    join (elementsLayout span es) = commaJoin (es.map elementText) := by
  induction es with
  | nil => rfl
  | cons e es ih =>
    rw [elementsLayout, join_append, join_append, join_elementLayout, ih]
    cases es with
    | nil => simp [commaJoin]
    | cons => simp [commaJoin]

theorem join_propertiesLayout (span : Span) (ps : List (Property Expr)) :
    join (propertiesLayout span ps) = commaJoin (ps.map propertyText) := by
  induction ps with
  | nil => rfl
  | cons p ps ih =>
    obtain ⟨key, value, place⟩ := p
    rw [propertiesLayout, join_append, ih]
    cases ps with
    | nil => simp [commaJoin, propertyText, text]
    | cons => simp [commaJoin, propertyText, text]

theorem join_argumentsLayout (span : Span) (i : Nat) (as : List (Argument Expr)) :
    join (argumentsLayout span i as) = commaJoin ((as.zipIdx i).map argumentText) := by
  induction as generalizing i with
  | nil => rfl
  | cons a as ih =>
    rw [argumentsLayout, join_append, join_append, join_argumentLayout, ih]
    cases as with
    | nil => simp [commaJoin]
    | cons => simp [commaJoin]

theorem join_stagesLayout (ss : List (Stage Expr)) :
    join (stagesLayout ss) = commaJoin (ss.map stageText) := by
  induction ss with
  | nil => rfl
  | cons s ss ih =>
    obtain ⟨optional, body⟩ := s
    rw [stagesLayout, join_append, ih]
    cases ss with
    | nil => simp [commaJoin, stageText, text]
    | cons => simp [commaJoin, stageText, text]

theorem join_declarationsLayout (ds : List (Declaration Expr)) :
    join (declarationsLayout ds) = ds.flatMap declarationText := by
  induction ds with
  | nil => rfl
  | cons d ds ih =>
    obtain ⟨name, init, span⟩ := d
    simp [declarationsLayout, ih, declarationText, text]

section Nodes

variable {span : Span} {a b c left right : Expr}

theorem text_literal (l : Literal) : (literal span l).text = l.listing := List.append_nil _

theorem text_identifier (name : String) : (identifier span name).text = lookup name :=
  List.append_nil _

theorem text_topic : (topic span).text = lookup topicName := List.append_nil _

theorem text_unary (op : UnaryOp) : (unary span op a).text = unaryHead op ++ (a.text ++ [')']) := by
  simp [text, layout]

theorem text_binary (op : BinaryOp) :
    (binary span op left right).text =
      binaryHead op ++ (left.text ++ ',' :: (right.text ++ [')'])) := by
  simp [text, layout]

theorem text_logical (op : LogicalOp) :
    (logical span op left right).text =
      logicalHead op ++ (left.text ++ (logicalMiddle ++ (right.text ++ [')', ')']))) := by
  simp [text, layout]

theorem text_coalesce : (coalesce span left right).text =
    '(' :: (left.text ++ '?' :: '?' :: (right.text ++ [')'])) := by
  simp [text, layout]

theorem text_conditional (alternate : Option Expr) :
    (conditional span a b alternate).text = conditionalHead ++ (a.text ++ (conditionalThen ++
      (b.text ++ ':' :: (alternateText alternate ++ [')'])))) := by
  simp [text, layout, join_alternateLayout]

theorem text_object (ps : List (Property Expr)) : (object span ps).text =
    '\x7b' :: (commaJoin (ps.map propertyText) ++ ['\x7d']) := by
  simp [text, layout, join_propertiesLayout]

theorem text_array (es : List (Option Expr)) : (array span es).text =
    '[' :: (commaJoin (es.map elementText) ++ [']']) := by
  simp [text, layout, join_elementsLayout]

theorem text_member (computed extended : Bool) : (member span a b computed extended).text =
    memberHead ++ (a.text ++ ',' :: (keyText computed b ++ [')'])) := by
  cases computed <;> simp [text, layout, keyText]

/-- What a call writes behind its callee. -/
def callEnd (as : List (Argument Expr)) : List Char :=
  if as.isEmpty then ",null)".toList
  else callOpen ++ (commaJoin (as.zipIdx.map argumentText) ++ callClose)

theorem text_call {as : List (Argument Expr)} (h : as.any (·.isPlaceholder) = false) :
    (call span a as).text = callHead ++ (a.text ++ callEnd as) := by
  cases as with
  | nil => simp [text, layout, callEnd, Fragment.ofString]
  | cons x as => simp [text, layout, callEnd, h, join_argumentsLayout]

theorem text_curry {as : List (Argument Expr)} (h : as.any (·.isPlaceholder) = true) :
    (call span a as).text =
      curryHead as ++ (callHead ++ (a.text ++ (callEnd as ++ curryClose))) := by
  cases as with
  | nil => cases h
  | cons x as => simp [text, layout, callEnd, h, join_argumentsLayout]

theorem text_pipe (ss : List (Stage Expr)) : (pipe span a ss).text =
    pipeHead ++ (a.text ++ (callOpen ++ (commaJoin (ss.map stageText) ++ callClose))) := by
  simp [text, layout, join_stagesLayout]

theorem text_thunk : (lambda span [] a).text = thunkHead ++ (a.text ++ [')']) := by
  simp [text, layout]

theorem text_lambda {ps : List Name} (h : ps ≠ []) : (lambda span ps a).text =
    lambdaHead ps.length ++ (a.text ++ lambdaClose ps) := by
  simp [text, layout, h]

theorem text_letIn (ds : List (Declaration Expr)) : (letIn span ds a).text =
    letHead ++ (ds.flatMap declarationText ++ (letReturn ++ (a.text ++ letClose))) := by
  simp [text, layout, join_declarationsLayout]

end Nodes

end Expr

end ExprLang
