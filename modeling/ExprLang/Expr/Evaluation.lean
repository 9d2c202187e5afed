import ExprLang.Listing
import ExprLang.Machine

/-!
The meaning of trees. A tree is evaluated as it stands: parts run from left to right and once, and
a part that may not be needed runs only when it is. A node that fails on its own account names the
position at which its listing begins, so a tree is evaluated together with the number of characters
before its listing.
-/
namespace ExprLang

/-- A tree whose listing begins after so many characters. -/
structure Placed where
  tree : Expr
  start : Nat

namespace Expr

open Eval Listing

mutual

def eval (call : Caller Placed) (env : Env) : Expr → Nat → Eval Placed Value
  | .literal _ l, _ => return .ofLiteral l
  | .identifier _ name, start => Eval.lookup call (start + 1) env name
  | .topic _, start => claim (start + 1) env.topic
  | .unary _ op argument, start => do
    let v ← argument.eval call env (start + (unaryHead op).length)
    Eval.unary call (start + 1) env op v
  | .binary _ op left right, start => do
    let first := start + (binaryHead op).length
    let a ← left.eval call env first
    let b ← right.eval call env (first + left.width + 1)
    Eval.binary call (start + 1) env op a b
  | .logical _ op left right, start => do
    let first := start + (logicalHead op).length
    note (.logical op)
    within (start + 1) <| act call
      (fun side _ =>
        match side with
        | .left => left.eval call env first
        | .right => right.eval call env (first + left.width + logicalMiddle.length))
      (env.context.policy.logical op)
  | .coalesce _ left right, start => do
    let v ← left.eval call env (start + 1)
    if v.isNullish then right.eval call env (start + 1 + left.width + 2) else return v
  | .conditional _ test consequent alternate, start => do
    let first := start + conditionalHead.length
    let second := first + test.width + conditionalThen.length
    let v ← test.eval call env first
    if ← Eval.truthy call env v then consequent.eval call env second
    else evalAlternate call env alternate (second + consequent.width + 1)
  | .object _ properties, start => do
    let es ← evalProperties call env properties (start + 1)
    return .ofEntries (← reference) es
  | .array _ elements, start => do
    let vs ← evalElements call env elements (start + 1)
    return .array (← reference) vs
  | .member _ target key computed _, start => do
    let first := start + memberHead.length
    let t ← target.eval call env first
    let k ←
      if computed then key.eval call env (first + target.width + 1) else pure key.plainValue
    Eval.property call (start + 1) env t k
  | .call _ callee arguments, start =>
    if arguments.isEmpty then do
      let f ← callee.eval call env (start + callHead.length)
      callThrough call (start + 1) env.context f none
    else if arguments.any (·.isPlaceholder) then do
      let start := start + (curryHead arguments).length
      let first := start + callHead.length
      let f ← callee.eval call env first
      let slots ← evalArguments call env arguments 0 (first + callee.width + callOpen.length)
      newFunction (.curried (start + 1) env.context f slots)
    else do
      let first := start + callHead.length
      let f ← callee.eval call env first
      let vs ← evalArguments call env arguments 0 (first + callee.width + callOpen.length)
      callThrough call (start + 1) env.context f (some (vs.filterMap id))
  | .pipe _ head stages, start => do
    let first := start + pipeHead.length
    let v ← head.eval call env first
    let optionals := stages.map (·.optional)
    note (.pipe v optionals)
    within (start + 1) <| act call
      (evalStage call env stages (first + head.width + callOpen.length))
      (env.context.policy.pipe v optionals)
  | .lambda _ parameters body, start =>
    let head := if parameters.isEmpty then thunkHead else lambdaHead parameters.length
    newFunction (.lambda (parameters.map (·.text)) ⟨body, start + head.length⟩ env)
  | .letIn _ declarations body, start => do
    let first := start + letHead.length
    let env ← evalDeclarations call env declarations first
    body.eval call env (first + Fragment.size (declarationsLayout declarations) + letReturn.length)

def plainValue : Expr → Value
  | .identifier _ name => .string name
  | _ => .undefined

def evalAlternate (call : Caller Placed) (env : Env) : Option Expr → Nat → Eval Placed Value
  | none, _ => return .undefined
  | some e, start => e.eval call env start

def evalProperties (call : Caller Placed) (env : Env) :
    List (Property Expr) → Nat → Eval Placed (List (String × Value))
  | [], _ => return []
  | ⟨key, value, _⟩ :: ps, start => do
    let first := start + (quoted key.text).length + 1
    let v ← value.eval call env first
    let vs ← evalProperties call env ps (first + value.width + 1)
    return (key.text, v) :: vs

def evalElement (call : Caller Placed) (env : Env) : Option Expr → Nat → Eval Placed Value
  | none, _ => return .undefined
  | some e, start => e.eval call env start

def evalElements (call : Caller Placed) (env : Env) :
    List (Option Expr) → Nat → Eval Placed (List Value)
  | [], _ => return []
  | e :: es, start => do
    let v ← evalElement call env e start
    let vs ← evalElements call env es (start + Fragment.size (elementLayout e) + 1)
    return v :: vs

def evalArgument (call : Caller Placed) (env : Env) :
    Argument Expr → Nat → Eval Placed (Option Value)
  | .value e, start => do
    let v ← e.eval call env start
    return some v
  | .placeholder _, _ => return none

def evalArguments (call : Caller Placed) (env : Env) :
    List (Argument Expr) → Nat → Nat → Eval Placed (List (Option Value))
  | [], _, _ => return []
  | a :: as, i, start => do
    let v ← evalArgument call env a start
    let vs ← evalArguments call env as (i + 1) (start + Fragment.size (argumentLayout i a) + 1)
    return v :: vs

def evalStage (call : Caller Placed) (env : Env) :
    List (Stage Expr) → Nat → Nat → Value → Eval Placed Value
  | [], _, _, v => return v
  | ⟨optional, body⟩ :: _, start, 0, v =>
    body.eval call (env.push ⟨[topicName], [v]⟩) (start + (stageHead optional).length)
  | ⟨optional, body⟩ :: ss, start, i + 1, v =>
    let first := start + (stageHead optional).length
    evalStage call env ss (first + body.width + stageClose.length + 1) i v

def evalDeclarations (call : Caller Placed) (env : Env) :
    List (Declaration Expr) → Nat → Eval Placed Env
  | [], _ => return env
  | ⟨name, init, _⟩ :: ds, start => do
    let first := start + valueHead.length
    let v ← init.eval call env first
    evalDeclarations call (env.push ⟨[name.text], [v]⟩) ds
      (first + init.width + statementClose.length + nameHead.length + (quoted name.text).length +
        statementClose.length)

end

end Expr

namespace Placed

def run (call : Caller Placed) (p : Placed) (env : Env) : Eval Placed Value :=
  p.tree.eval call env p.start

def caller (depth : Nat) : Caller Placed := Eval.call run depth

def eval (depth : Nat) (env : Env) (p : Placed) : Eval Placed Value :=
  run (caller depth) p env

end Placed

end ExprLang
