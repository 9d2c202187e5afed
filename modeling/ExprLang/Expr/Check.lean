import ExprLang.CompileError
import ExprLang.Expr

/-! What a tree must satisfy to be compiled. -/
namespace ExprLang

inductive TreeError where
  | found (e : CompileError)
  -- A text that is not the JSON form of a tree.
  | malformed
  -- An access that is not computed has a property that is not a name.
  | propertyNotName
  -- A text that gave neither a tree nor an error.
  | noTree
deriving DecidableEq

namespace TreeError

def message : TreeError → String
  | found e => e.message
  | malformed => "malformed expression tree"
  | propertyNotName => "non-computed member property must be an identifier"
  | noTree => "parser produced no expression"

end TreeError

inductive TreeFault where
  | found (f : Finding)
  | propertyNotName
deriving DecidableEq

namespace TreeFault

def report (expression : String) : TreeFault → TreeError
  | found f => .found (.ofFinding expression f)
  | propertyNotName => .propertyNotName

end TreeFault

/-- The first name that occurred before in the list, not counting those already seen. -/
def repeatedName? (seen : List String) : List Name → Option Name
  | [] => none
  | n :: ns => if seen.contains n.text then some n else repeatedName? (n.text :: seen) ns

namespace Expr

def declarationFault? (declarations : List (Declaration Expr)) : Option TreeFault :=
  (repeatedName? [] (declarations.map (·.name))).map fun n =>
    .found ⟨.repeatedName n.text, n.span⟩

def isIdentifier : Expr → Bool
  | .identifier .. => true
  | _ => false

mutual

/-- The first fault of a tree in the order of the text. A node's own fault comes before those of
its children, but a property comes after the object it belongs to. -/
def fault? : Expr → Option TreeFault
  | .literal .. | .identifier .. | .topic _ => none
  | .unary _ _ argument => argument.fault?
  | .binary _ _ left right | .logical _ _ left right | .coalesce _ left right =>
    left.fault?.or right.fault?
  | .conditional _ test consequent alternate =>
    test.fault?.or (consequent.fault?.or (optionFault? alternate))
  | .object _ properties => propertiesFault? properties
  | .array _ elements => elementsFault? elements
  | .member _ target key computed _ =>
    target.fault?.or
      (if computed then key.fault? else if key.isIdentifier then none else some .propertyNotName)
  | .call _ callee arguments => callee.fault?.or (argumentsFault? arguments)
  | .pipe _ head stages => head.fault?.or (stagesFault? stages)
  | .lambda _ _ body => body.fault?
  | .letIn _ declarations body =>
    (declarationFault? declarations).or ((declarationsFault? declarations).or body.fault?)

def optionFault? : Option Expr → Option TreeFault
  | none => none
  | some e => e.fault?

def propertiesFault? : List (Property Expr) → Option TreeFault
  | [] => none
  | ⟨_, value, _⟩ :: ps => value.fault?.or (propertiesFault? ps)

def elementsFault? : List (Option Expr) → Option TreeFault
  | [] => none
  | e :: es => (optionFault? e).or (elementsFault? es)

def argumentsFault? : List (Argument Expr) → Option TreeFault
  | [] => none
  | .value e :: as => e.fault?.or (argumentsFault? as)
  | .placeholder _ :: as => argumentsFault? as

def stagesFault? : List (Stage Expr) → Option TreeFault
  | [] => none
  | ⟨_, body⟩ :: ss => body.fault?.or (stagesFault? ss)

def declarationsFault? : List (Declaration Expr) → Option TreeFault
  | [] => none
  | ⟨_, init, _⟩ :: ds => init.fault?.or (declarationsFault? ds)

end

def rejection? (e : Expr) : Option TreeFault :=
  match e.deeperThan? maxHeight with
  | some node => some (.found ⟨.treeTooHigh, node.span⟩)
  | none => e.fault?

end Expr

end ExprLang
