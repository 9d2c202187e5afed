import ExprLang.Expr

/-! Trees up to their spans, and how high they are. -/
namespace ExprLang

def noSpan : Span := .point .start

def Name.eraseSpan (n : Name) : Name := ⟨n.text, noSpan⟩

def Key.eraseSpan : Key → Key
  | .name id => .name id.eraseSpan
  | .literal l _ => .literal l noSpan

namespace Expr

mutual

def eraseSpans : Expr → Expr
  | .literal _ l => .literal noSpan l
  | .identifier _ name => .identifier noSpan name
  | .topic _ => .topic noSpan
  | .unary _ op argument => .unary noSpan op argument.eraseSpans
  | .binary _ op left right => .binary noSpan op left.eraseSpans right.eraseSpans
  | .logical _ op left right => .logical noSpan op left.eraseSpans right.eraseSpans
  | .coalesce _ left right => .coalesce noSpan left.eraseSpans right.eraseSpans
  | .conditional _ test consequent alternate =>
    .conditional noSpan test.eraseSpans consequent.eraseSpans (eraseOption alternate)
  | .object _ properties => .object noSpan (eraseProperties properties)
  | .array _ elements => .array noSpan (eraseElements elements)
  | .member _ target key computed extended =>
    .member noSpan target.eraseSpans key.eraseSpans computed extended
  | .call _ callee arguments => .call noSpan callee.eraseSpans (eraseArguments arguments)
  | .pipe _ head stages => .pipe noSpan head.eraseSpans (eraseStages stages)
  | .lambda _ parameters body =>
    .lambda noSpan (parameters.map (·.eraseSpan)) body.eraseSpans
  | .letIn _ declarations body =>
    .letIn noSpan (eraseDeclarations declarations) body.eraseSpans

def eraseOption : Option Expr → Option Expr
  | none => none
  | some e => some e.eraseSpans

def eraseProperties : List (Property Expr) → List (Property Expr)
  | [] => []
  | ⟨key, value, _⟩ :: ps => ⟨key.eraseSpan, value.eraseSpans, noSpan⟩ :: eraseProperties ps

def eraseElements : List (Option Expr) → List (Option Expr)
  | [] => []
  | e :: es => eraseOption e :: eraseElements es

def eraseArguments : List (Argument Expr) → List (Argument Expr)
  | [] => []
  | .value e :: as => .value e.eraseSpans :: eraseArguments as
  | .placeholder _ :: as => .placeholder noSpan :: eraseArguments as

def eraseStages : List (Stage Expr) → List (Stage Expr)
  | [] => []
  | ⟨optional, body⟩ :: ss => ⟨optional, body.eraseSpans⟩ :: eraseStages ss

def eraseDeclarations : List (Declaration Expr) → List (Declaration Expr)
  | [] => []
  | ⟨name, init, _⟩ :: ds => ⟨name.eraseSpan, init.eraseSpans, noSpan⟩ :: eraseDeclarations ds

end

mutual

def height : Expr → Nat
  | .literal .. | .identifier .. | .topic _ => 1
  | .unary _ _ argument => argument.height + 1
  | .binary _ _ left right | .logical _ _ left right | .coalesce _ left right =>
    max left.height right.height + 1
  | .conditional _ test consequent alternate =>
    max (max test.height consequent.height) (optionHeight alternate) + 1
  | .object _ properties => propertiesHeight properties + 1
  | .array _ elements => elementsHeight elements + 1
  | .member _ target key _ _ => max target.height key.height + 1
  | .call _ callee arguments => max callee.height (argumentsHeight arguments) + 1
  | .pipe _ head stages => max head.height (stagesHeight stages) + 1
  | .lambda _ _ body => body.height + 1
  | .letIn _ declarations body => max (declarationsHeight declarations) body.height + 1

def optionHeight : Option Expr → Nat
  | none => 0
  | some e => e.height

def propertiesHeight : List (Property Expr) → Nat
  | [] => 0
  | ⟨_, value, _⟩ :: ps => max value.height (propertiesHeight ps)

def elementsHeight : List (Option Expr) → Nat
  | [] => 0
  | e :: es => max (optionHeight e) (elementsHeight es)

def argumentsHeight : List (Argument Expr) → Nat
  | [] => 0
  | .value e :: as => max e.height (argumentsHeight as)
  | .placeholder _ :: as => argumentsHeight as

def stagesHeight : List (Stage Expr) → Nat
  | [] => 0
  | ⟨_, body⟩ :: ss => max body.height (stagesHeight ss)

def declarationsHeight : List (Declaration Expr) → Nat
  | [] => 0
  | ⟨_, init, _⟩ :: ds => max init.height (declarationsHeight ds)

end

end Expr

end ExprLang
