import ExprLang.Expr.Evaluation
import ExprLang.Proofs.Positions

/-!
Evaluation under a probe. The probe runs whenever a node is evaluated, just before it, and is told
where the node stands and the environment it is evaluated in.
-/
namespace ExprLang

/-- A tree that is evaluated in a context, and a position in it. -/
structure Post where
  root : Expr
  context : Context
  path : List Nat

def Post.child (p : Post) (i : Nat) : Post := { p with path := p.path ++ [i] }

/-- The node at a post, and where its listing begins. -/
structure Spot where
  post : Post
  tree : Expr
  start : Nat

/-- The environment has the frames that the position of the node gives it, and the context in which
the whole tree is evaluated. -/
structure Spot.Encloses (s : Spot) (env : Env) : Prop where
  node : s.post.root.at? s.post.path = some s.tree
  names : env.scope.map (·.names) = s.post.root.framesAt s.post.path
  context : env.context = s.post.context

abbrev Probe : Type := Spot → Env → Eval Spot Unit

/-- Does nothing where a node is evaluated in an environment of its position. -/
def Probe.Silent (probe : Probe) : Prop := ∀ s env, s.Encloses env → probe s env = pure ()

namespace Expr

open Eval Listing

mutual

def probed (probe : Probe) (call : Caller Spot) (p : Post) (env : Env) (e : Expr) (start : Nat) :
    Eval Spot Value := do
  probe ⟨p, e, start⟩ env
  match e with
  | .literal _ l => return .ofLiteral l
  | .identifier _ name => Eval.lookup call (start + 1) env name
  | .topic _ => claim (start + 1) env.topic
  | .unary _ op argument => do
    let v ← argument.probed probe call (p.child 0) env (start + (unaryHead op).length)
    Eval.unary call (start + 1) env op v
  | .binary _ op left right => do
    let first := start + (binaryHead op).length
    let a ← left.probed probe call (p.child 0) env first
    let b ← right.probed probe call (p.child 1) env (first + left.width + 1)
    Eval.binary call (start + 1) env op a b
  | .logical _ op left right => do
    let first := start + (logicalHead op).length
    note (.logical op)
    within (start + 1) <| act call
      (fun side _ =>
        match side with
        | .left => left.probed probe call (p.child 0) env first
        | .right =>
          right.probed probe call (p.child 1) env (first + left.width + logicalMiddle.length))
      (env.context.policy.logical op)
  | .coalesce _ left right => do
    let v ← left.probed probe call (p.child 0) env (start + 1)
    if v.isNullish then right.probed probe call (p.child 1) env (start + 1 + left.width + 2)
    else return v
  | .conditional _ test consequent alternate => do
    let first := start + conditionalHead.length
    let second := first + test.width + conditionalThen.length
    let v ← test.probed probe call (p.child 0) env first
    if ← Eval.truthy call env v then consequent.probed probe call (p.child 1) env second
    else probedAlternate probe call p env alternate (second + consequent.width + 1)
  | .object _ properties => do
    let es ← probedProperties probe call p env 0 properties (start + 1)
    return .ofEntries (← reference) es
  | .array _ elements => do
    let vs ← probedElements probe call p env 0 elements (start + 1)
    return .array (← reference) vs
  | .member _ target key computed _ => do
    let first := start + memberHead.length
    let t ← target.probed probe call (p.child 0) env first
    let k ←
      if computed then key.probed probe call (p.child 1) env (first + target.width + 1)
      else pure key.plainValue
    Eval.property call (start + 1) env t k
  | .call _ callee arguments =>
    if arguments.isEmpty then do
      let f ← callee.probed probe call (p.child 0) env (start + callHead.length)
      callThrough call (start + 1) env.context f none
    else if arguments.any (·.isPlaceholder) then do
      let start := start + (curryHead arguments).length
      let first := start + callHead.length
      let f ← callee.probed probe call (p.child 0) env first
      let slots ← probedArguments probe call p env 1 arguments 0
        (first + callee.width + callOpen.length)
      newFunction (.curried (start + 1) env.context f slots)
    else do
      let first := start + callHead.length
      let f ← callee.probed probe call (p.child 0) env first
      let vs ← probedArguments probe call p env 1 arguments 0
        (first + callee.width + callOpen.length)
      callThrough call (start + 1) env.context f (some (vs.filterMap id))
  | .pipe _ head stages => do
    let first := start + pipeHead.length
    let v ← head.probed probe call (p.child 0) env first
    let optionals := stages.map (·.optional)
    note (.pipe v optionals)
    within (start + 1) <| act call
      (probedStage probe call p env 1 stages (first + head.width + callOpen.length))
      (env.context.policy.pipe v optionals)
  | .lambda _ parameters body =>
    let head := if parameters.isEmpty then thunkHead else lambdaHead parameters.length
    newFunction (.lambda (parameters.map (·.text)) ⟨p.child 0, body, start + head.length⟩ env)
  | .letIn _ declarations body => do
    let first := start + letHead.length
    let env ← probedDeclarations probe call p env 0 declarations first
    body.probed probe call (p.child declarations.length) env
      (first + Fragment.size (declarationsLayout declarations) + letReturn.length)

def probedAlternate (probe : Probe) (call : Caller Spot) (p : Post) (env : Env) :
    Option Expr → Nat → Eval Spot Value
  | none, _ => return .undefined
  | some e, start => e.probed probe call (p.child 2) env start

/-- The parts of a node from the child numbered `i` on. -/
def probedProperties (probe : Probe) (call : Caller Spot) (p : Post) (env : Env) (i : Nat) :
    List (Property Expr) → Nat → Eval Spot (List (String × Value))
  | [], _ => return []
  | ⟨key, value, _⟩ :: ps, start => do
    let first := start + (quoted key.text).length + 1
    let v ← value.probed probe call (p.child i) env first
    let vs ← probedProperties probe call p env (i + 1) ps (first + value.width + 1)
    return (key.text, v) :: vs

/-- A hole is not a child. -/
def probedElements (probe : Probe) (call : Caller Spot) (p : Post) (env : Env) (i : Nat) :
    List (Option Expr) → Nat → Eval Spot (List Value)
  | [], _ => return []
  | none :: es, start => do
    let vs ← probedElements probe call p env i es (start + 0 + 1)
    return .undefined :: vs
  | some e :: es, start => do
    let v ← e.probed probe call (p.child i) env start
    let vs ← probedElements probe call p env (i + 1) es (start + e.width + 1)
    return v :: vs

def probedArguments (probe : Probe) (call : Caller Spot) (p : Post) (env : Env) (i : Nat) :
    List (Argument Expr) → Nat → Nat → Eval Spot (List (Option Value))
  | [], _, _ => return []
  | .value e :: as, k, start => do
    let v ← e.probed probe call (p.child i) env start
    let vs ← probedArguments probe call p env (i + 1) as (k + 1) (start + e.width + 1)
    return some v :: vs
  | .placeholder span :: as, k, start => do
    let vs ← probedArguments probe call p env i as (k + 1)
      (start + Fragment.size (argumentLayout k (.placeholder span)) + 1)
    return none :: vs

def probedStage (probe : Probe) (call : Caller Spot) (p : Post) (env : Env) (i : Nat) :
    List (Stage Expr) → Nat → Nat → Value → Eval Spot Value
  | [], _, _, v => return v
  | ⟨optional, body⟩ :: _, start, 0, v =>
    body.probed probe call (p.child i) (env.push ⟨[topicName], [v]⟩)
      (start + (stageHead optional).length)
  | ⟨optional, body⟩ :: ss, start, k + 1, v =>
    let first := start + (stageHead optional).length
    probedStage probe call p env (i + 1) ss (first + body.width + stageClose.length + 1) k v

def probedDeclarations (probe : Probe) (call : Caller Spot) (p : Post) (env : Env) (i : Nat) :
    List (Declaration Expr) → Nat → Eval Spot Env
  | [], _ => return env
  | ⟨name, init, _⟩ :: ds, start => do
    let first := start + valueHead.length
    let v ← init.probed probe call (p.child i) env first
    probedDeclarations probe call p (env.push ⟨[name.text], [v]⟩) (i + 1) ds
      (first + init.width + statementClose.length + nameHead.length + (quoted name.text).length +
        statementClose.length)

end

end Expr

namespace Spot

def run (probe : Probe) (call : Caller Spot) (s : Spot) (env : Env) : Eval Spot Value :=
  s.tree.probed probe call s.post env s.start

def caller (probe : Probe) (depth : Nat) : Caller Spot := Eval.call (run probe) depth

def eval (probe : Probe) (depth : Nat) (env : Env) (s : Spot) : Eval Spot Value :=
  run probe (caller probe depth) s env

end Spot

end ExprLang
