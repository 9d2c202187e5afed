import ExprLang.Listing

/-!
Compiled expressions. A node that can fail on its own account knows its site: the position, counted
from 1, of its first character in the listing.
-/
namespace ExprLang

inductive Code where
  | undefined
  | constant (value : Literal)
  | lookup (site : Nat) (name : String)
  | topic (site : Nat)
  | unary (site : Nat) (op : UnaryOp) (argument : Code)
  | binary (site : Nat) (op : BinaryOp) (left right : Code)
  | logical (site : Nat) (op : LogicalOp) (left right : Code)
  | coalesce (left right : Code)
  | conditional (test consequent alternate : Code)
  | object (entries : List (String × Code))
  | array (elements : List (Option Code))
  | property (site : Nat) (target key : Code)
  -- A call written without arguments.
  | callBare (site : Nat) (callee : Code)
  | call (site : Nat) (callee : Code) (arguments : List (Option Code))
  -- A call with placeholders, which makes a function of what is missing.
  | curry (site : Nat) (callee : Code) (slots : List (Option Code))
  | pipe (site : Nat) (head : Code) (stages : List (Bool × Code))
  | lambda (parameters : List String) (body : Code)
  -- One name for the body. The initial value does not see it.
  | letIn (name : String) (init body : Code)

namespace Expr

open Listing

mutual

/-- The code of a tree whose listing begins after so many characters. -/
def compile : Expr → Nat → Code
  | .literal _ l, _ => .constant l
  | .identifier _ name, start => .lookup (start + 1) name
  | .topic _, start => .topic (start + 1)
  | .unary _ op argument, start =>
    .unary (start + 1) op (argument.compile (start + (unaryHead op).length))
  | .binary _ op left right, start =>
    let first := start + (binaryHead op).length
    .binary (start + 1) op (left.compile first) (right.compile (first + left.width + 1))
  | .logical _ op left right, start =>
    let first := start + (logicalHead op).length
    .logical (start + 1) op (left.compile first)
      (right.compile (first + left.width + logicalMiddle.length))
  | .coalesce _ left right, start =>
    .coalesce (left.compile (start + 1)) (right.compile (start + 1 + left.width + 2))
  | .conditional _ test consequent alternate, start =>
    let first := start + conditionalHead.length
    let second := first + test.width + conditionalThen.length
    .conditional (test.compile first) (consequent.compile second)
      (compileAlternate alternate (second + consequent.width + 1))
  | .object _ properties, start => .object (compileProperties properties (start + 1))
  | .array _ elements, start => .array (compileElements elements (start + 1))
  | .member _ target key computed _, start =>
    let first := start + memberHead.length
    .property (start + 1) (target.compile first)
      (if computed then key.compile (first + target.width + 1) else key.plainKey)
  | .call _ callee arguments, start =>
    if arguments.isEmpty then .callBare (start + 1) (callee.compile (start + callHead.length))
    else
      let curried := arguments.any (·.isPlaceholder)
      let start := if curried then start + (curryHead arguments).length else start
      let first := start + callHead.length
      let callee' := callee.compile first
      let arguments' := compileArguments arguments 0 (first + callee.width + callOpen.length)
      if curried then .curry (start + 1) callee' arguments'
      else .call (start + 1) callee' arguments'
  | .pipe _ head stages, start =>
    let first := start + pipeHead.length
    .pipe (start + 1) (head.compile first)
      (compileStages stages (first + head.width + callOpen.length))
  | .lambda _ parameters body, start =>
    let head := if parameters.isEmpty then thunkHead else lambdaHead parameters.length
    .lambda (parameters.map (·.text)) (body.compile (start + head.length))
  | .letIn _ declarations body, start =>
    let first := start + letHead.length
    let last := first + Fragment.size (declarationsLayout declarations) + letReturn.length
    compileDeclarations declarations first (body.compile last)

/-- A property that is not computed stands for its name. -/
def plainKey : Expr → Code
  | .identifier _ name => .constant (.string name)
  | _ => .undefined

def compileAlternate : Option Expr → Nat → Code
  | none, _ => .undefined
  | some e, start => e.compile start

def compileProperties : List (Property Expr) → Nat → List (String × Code)
  | [], _ => []
  | ⟨key, value, _⟩ :: ps, start =>
    let first := start + (quoted key.text).length + 1
    (key.text, value.compile first) :: compileProperties ps (first + value.width + 1)

def compileElement : Option Expr → Nat → Option Code
  | none, _ => none
  | some e, start => some (e.compile start)

def compileElements : List (Option Expr) → Nat → List (Option Code)
  | [], _ => []
  | e :: es, start =>
    compileElement e start :: compileElements es (start + Fragment.size (elementLayout e) + 1)

def compileArgument : Argument Expr → Nat → Option Code
  | .value e, start => some (e.compile start)
  | .placeholder _, _ => none

def compileArguments : List (Argument Expr) → Nat → Nat → List (Option Code)
  | [], _, _ => []
  | a :: as, i, start =>
    compileArgument a start ::
      compileArguments as (i + 1) (start + Fragment.size (argumentLayout i a) + 1)

def compileStages : List (Stage Expr) → Nat → List (Bool × Code)
  | [], _ => []
  | ⟨optional, body⟩ :: ss, start =>
    let first := start + (stageHead optional).length
    (optional, body.compile first) ::
      compileStages ss (first + body.width + stageClose.length + 1)

/-- The declarations around the code of a body, each seen by those after it. -/
def compileDeclarations : List (Declaration Expr) → Nat → Code → Code
  | [], _, body => body
  | ⟨name, init, _⟩ :: ds, start, body =>
    let first := start + valueHead.length
    let next := first + init.width + statementClose.length + nameHead.length +
      (quoted name.text).length + statementClose.length
    .letIn name.text (init.compile first) (compileDeclarations ds next body)

end

end Expr

end ExprLang
