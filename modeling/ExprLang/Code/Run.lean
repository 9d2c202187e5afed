import ExprLang.Code
import ExprLang.Machine

/-! Running code. -/
namespace ExprLang

namespace Code

open Eval

mutual

def exec (call : Caller Code) (env : Env) : Code → Eval Code Value
  | .undefined => return .undefined
  | .constant l => return .ofLiteral l
  | .lookup site name => Eval.lookup call site env name
  | .topic site => claim site env.topic
  | .unary site op argument => do
    let v ← argument.exec call env
    Eval.unary call site env op v
  | .binary site op left right => do
    let a ← left.exec call env
    let b ← right.exec call env
    Eval.binary call site env op a b
  | .logical site op left right => do
    note (.logical op)
    within site <| act call
      (fun side _ =>
        match side with
        | .left => left.exec call env
        | .right => right.exec call env)
      (env.context.policy.logical op)
  | .coalesce left right => do
    let v ← left.exec call env
    if v.isNullish then right.exec call env else return v
  | .conditional test consequent alternate => do
    let v ← test.exec call env
    if ← Eval.truthy call env v then consequent.exec call env else alternate.exec call env
  | .object entries => do
    let es ← execEntries call env entries
    return .ofEntries (← reference) es
  | .array elements => do
    let vs ← execItems call env elements
    return .array (← reference) vs
  | .property site target key => do
    let t ← target.exec call env
    let k ← key.exec call env
    Eval.property call site env t k
  | .callBare site callee => do
    let f ← callee.exec call env
    callThrough call site env.context f none
  | .call site callee arguments => do
    let f ← callee.exec call env
    let vs ← execItems call env arguments
    callThrough call site env.context f (some vs)
  | .curry site callee slots => do
    let f ← callee.exec call env
    let vs ← execSlots call env slots
    newFunction (.curried site env.context f vs)
  | .pipe site head stages => do
    let v ← head.exec call env
    let optionals := stages.map (·.1)
    note (.pipe v optionals)
    within site (act call (execStage call env stages) (env.context.policy.pipe v optionals))
  | .lambda parameters body => newFunction (.lambda parameters body env)
  | .letIn name init body => do
    let v ← init.exec call env
    body.exec call (env.push ⟨[name], [v]⟩)

def execItems (call : Caller Code) (env : Env) : List (Option Code) → Eval Code (List Value)
  | [] => return []
  | none :: cs => do
    let vs ← execItems call env cs
    return .undefined :: vs
  | some c :: cs => do
    let v ← c.exec call env
    let vs ← execItems call env cs
    return v :: vs

def execSlots (call : Caller Code) (env : Env) :
    List (Option Code) → Eval Code (List (Option Value))
  | [] => return []
  | none :: cs => do
    let vs ← execSlots call env cs
    return none :: vs
  | some c :: cs => do
    let v ← c.exec call env
    let vs ← execSlots call env cs
    return some v :: vs

def execEntries (call : Caller Code) (env : Env) :
    List (String × Code) → Eval Code (List (String × Value))
  | [] => return []
  | (key, c) :: cs => do
    let v ← c.exec call env
    let vs ← execEntries call env cs
    return (key, v) :: vs

/-- Evaluates the stage of a number with its input as the topic. Past the last stage a value stays
as it is. -/
def execStage (call : Caller Code) (env : Env) :
    List (Bool × Code) → Nat → Value → Eval Code Value
  | [], _, v => return v
  | (_, c) :: _, 0, v => c.exec call (env.push ⟨[topicName], [v]⟩)
  | _ :: cs, i + 1, v => execStage call env cs i v

end

def run (call : Caller Code) (c : Code) (env : Env) : Eval Code Value := c.exec call env

def caller (depth : Nat) : Caller Code := Eval.call run depth

def eval (depth : Nat) (env : Env) (c : Code) : Eval Code Value := run (caller depth) c env

end Code

end ExprLang
