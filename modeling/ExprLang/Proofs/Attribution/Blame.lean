import ExprLang.Expr.Evaluation
import ExprLang.Expression
import ExprLang.Proofs.Suppliers

/-!
Evaluation that watches which nodes are in progress. No failure is put down to a place on its way
out: each names at once the node whose own operation raised it. Calls, pipes and logical operators
work as under the standard policy, the rest of a policy may be any.
-/
namespace ExprLang

open ExprLang.Expr Listing

variable {α : Type}

/-- A node of a tree whose listing begins after so many characters. The owner tells the trees
apart. -/
structure Node where
  owner : Nat
  tree : Expr
  start : Nat

namespace Node

def span (n : Node) : Span := n.tree.span

/-- The position in the listing at which the node's own operation begins. -/
def site (n : Node) : Nat :=
  match n.tree with
  | .call _ _ arguments =>
    if arguments.any (·.isPlaceholder) then n.start + (curryHead arguments).length + 1
    else n.start + 1
  | _ => n.start + 1

end Node

/-- An error with the node that raised it and the nodes in progress, the innermost first. No node
raised an error of a call that a host function or a policy made. -/
structure Blame where
  error : EvalError
  node : Option Node
  progress : List Node

def Blame.fault (b : Blame) : Fault := ⟨b.error, b.node.map Node.site⟩

abbrev Watch (α : Type) : Type := ExceptT Blame (Run Node Node) α

namespace Watch

/-- How functions are called: for the sake of a node or of none, and with nodes in progress. -/
abbrev Caller : Type := Option Node → List Node → Value → List Value → Watch Value

def note (e : Event) : Watch Unit := ExceptT.lift (Run.note e)

def raise (node : Option Node) (progress : List Node) (e : EvalError) : Watch α :=
  throw ⟨e, node, progress⟩

/-- A computation as a host function or a policy sees it. -/
def seen (m : Watch α) : Run Node Node (Except Fault α) := do return (← m.run).mapError Blame.fault

def ask (call : Caller) (progress : List Node) (h : Hook α) : Watch α :=
  ExceptT.lift (h.perform (fun f vs => seen (call none progress f vs)) fun i _ => nomatch i)

/-- The innermost node in progress puts a question to the policy, and fails if it has no answer. -/
def question (call : Caller) (n : Node) (progress : List Node) (e : Event)
    (h : Hook (Except EvalError α)) : Watch α := do
  note e
  match ← ask call progress h with
  | .ok a => return a
  | .error e => raise (some n) progress e

def truthy (call : Caller) (progress : List Node) (env : Env) (v : Value) : Watch Bool := do
  note (.truthy v)
  ask call progress (env.context.policy.truthy v)

/-- A host function that fails, fails the node for whose sake it was called. -/
def enter (run : Caller → List Node → Node → Env → Watch Value) (call : Caller)
    (node : Option Node) (progress : List Node) (handle : Nat) (vs : List Value) :
    Callable Node Node → Watch Value
  | .host name f => do
    note (.host handle name vs)
    match ← ask call progress (f.respond vs) with
    | .ok v => return v
    | .error f => raise node progress f.error
  | .lambda parameters body env => run call progress body (env.bind parameters vs)
  | .curried n _ callee slots => do
    let vs := Eval.fill slots vs
    note (.call callee (some vs))
    call (some n) (n :: progress) callee vs

def call (run : Caller → List Node → Node → Env → Watch Value) : Nat → Caller
  | 0, _, _, _, _ => ExceptT.lift Run.tooDeep
  | d + 1, node, progress, .function h, vs => do
    match ← ExceptT.lift (Run.callable? h) with
    | some c => enter run (call run d) node progress h vs c
    | none => raise node progress (.unexpectedType ["function"] (.function h))
  | _ + 1, node, progress, v, _ => raise node progress (.unexpectedType ["function"] v)

end Watch

namespace Expr

open Watch

mutual

def watch (call : Watch.Caller) (owner : Nat) (progress : List Node) (env : Env) :
    Expr → Nat → Watch Value
  | .literal _ l, _ => return .ofLiteral l
  | .identifier span name, start =>
    let n : Node := ⟨owner, .identifier span name, start⟩
    match env.scope.lookup? name with
    | some v => return v
    | none =>
      question call n (n :: progress) (.resolve name env.context.globals env.context.data)
        (env.resolve name)
  | .topic span, start =>
    let n : Node := ⟨owner, .topic span, start⟩
    match env.topic with
    | .ok v => return v
    | .error e => raise (some n) (n :: progress) e
  | .unary span op argument, start => do
    let n : Node := ⟨owner, .unary span op argument, start⟩
    let v ← argument.watch call owner (n :: progress) env (start + (unaryHead op).length)
    question call n (n :: progress) (.unary op v) (env.context.policy.unary op v)
  | .binary span op left right, start => do
    let n : Node := ⟨owner, .binary span op left right, start⟩
    let first := start + (binaryHead op).length
    let a ← left.watch call owner (n :: progress) env first
    let b ← right.watch call owner (n :: progress) env (first + left.width + 1)
    question call n (n :: progress) (.binary op a b) (env.context.policy.binary op a b)
  | .logical span op left right, start => do
    let n : Node := ⟨owner, .logical span op left right, start⟩
    let first := start + (logicalHead op).length
    note (.logical op)
    let a ← left.watch call owner (n :: progress) env first
    if Policy.Standard.needsRight op a then do
      let b ← right.watch call owner (n :: progress) env (first + left.width + logicalMiddle.length)
      return .bool b.isTruthy
    else return .bool a.isTruthy
  | .coalesce span left right, start => do
    let n : Node := ⟨owner, .coalesce span left right, start⟩
    let v ← left.watch call owner (n :: progress) env (start + 1)
    if v.isNullish then right.watch call owner (n :: progress) env (start + 1 + left.width + 2)
    else return v
  | .conditional span test consequent alternate, start => do
    let n : Node := ⟨owner, .conditional span test consequent alternate, start⟩
    let first := start + conditionalHead.length
    let second := first + test.width + conditionalThen.length
    let v ← test.watch call owner (n :: progress) env first
    if ← truthy call (n :: progress) env v then
      consequent.watch call owner (n :: progress) env second
    else watchAlternate call owner (n :: progress) env alternate (second + consequent.width + 1)
  | .object span properties, start => do
    let n : Node := ⟨owner, .object span properties, start⟩
    let es ← watchProperties call owner (n :: progress) env properties (start + 1)
    return .ofEntries (← ExceptT.lift Run.reference) es
  | .array span elements, start => do
    let n : Node := ⟨owner, .array span elements, start⟩
    let vs ← watchElements call owner (n :: progress) env elements (start + 1)
    return .array (← ExceptT.lift Run.reference) vs
  | .member span target key computed extended, start => do
    let n : Node := ⟨owner, .member span target key computed extended, start⟩
    let first := start + memberHead.length
    let t ← target.watch call owner (n :: progress) env first
    let k ←
      if computed then key.watch call owner (n :: progress) env (first + target.width + 1)
      else pure key.plainValue
    question call n (n :: progress) (.property t k) (env.context.policy.property t k)
  | .call span callee arguments, start => do
    let n : Node := ⟨owner, .call span callee arguments, start⟩
    if arguments.isEmpty then
      let f ← callee.watch call owner (n :: progress) env (start + callHead.length)
      note (.call f none)
      call (some n) (n :: progress) f []
    else if arguments.any (·.isPlaceholder) then
      let first := start + (curryHead arguments).length + callHead.length
      let f ← callee.watch call owner (n :: progress) env first
      let slots ← watchArguments call owner (n :: progress) env arguments 0
        (first + callee.width + callOpen.length)
      ExceptT.lift (Run.newFunction (.curried n env.context f slots))
    else
      let first := start + callHead.length
      let f ← callee.watch call owner (n :: progress) env first
      let vs ← watchArguments call owner (n :: progress) env arguments 0
        (first + callee.width + callOpen.length)
      note (.call f (some (vs.filterMap id)))
      call (some n) (n :: progress) f (vs.filterMap id)
  | .pipe span head stages, start => do
    let n : Node := ⟨owner, .pipe span head stages, start⟩
    let first := start + pipeHead.length
    let v ← head.watch call owner (n :: progress) env first
    note (.pipe v (stages.map (·.optional)))
    watchStages call owner (n :: progress) env stages (first + head.width + callOpen.length) v
  | .lambda _ parameters body, start =>
    let head := if parameters.isEmpty then thunkHead else lambdaHead parameters.length
    ExceptT.lift <|
      Run.newFunction (.lambda (parameters.map (·.text)) ⟨owner, body, start + head.length⟩ env)
  | .letIn span declarations body, start => do
    let n : Node := ⟨owner, .letIn span declarations body, start⟩
    let first := start + letHead.length
    let env ← watchDeclarations call owner (n :: progress) env declarations first
    body.watch call owner (n :: progress) env
      (first + Fragment.size (declarationsLayout declarations) + letReturn.length)

def watchAlternate (call : Watch.Caller) (owner : Nat) (progress : List Node) (env : Env) :
    Option Expr → Nat → Watch Value
  | none, _ => return .undefined
  | some e, start => e.watch call owner progress env start

def watchProperties (call : Watch.Caller) (owner : Nat) (progress : List Node) (env : Env) :
    List (Property Expr) → Nat → Watch (List (String × Value))
  | [], _ => return []
  | ⟨key, value, _⟩ :: ps, start => do
    let first := start + (quoted key.text).length + 1
    let v ← value.watch call owner progress env first
    let vs ← watchProperties call owner progress env ps (first + value.width + 1)
    return (key.text, v) :: vs

def watchElement (call : Watch.Caller) (owner : Nat) (progress : List Node) (env : Env) :
    Option Expr → Nat → Watch Value
  | none, _ => return .undefined
  | some e, start => e.watch call owner progress env start

def watchElements (call : Watch.Caller) (owner : Nat) (progress : List Node) (env : Env) :
    List (Option Expr) → Nat → Watch (List Value)
  | [], _ => return []
  | e :: es, start => do
    let v ← watchElement call owner progress env e start
    let vs ← watchElements call owner progress env es
      (start + Fragment.size (elementLayout e) + 1)
    return v :: vs

def watchArgument (call : Watch.Caller) (owner : Nat) (progress : List Node) (env : Env) :
    Argument Expr → Nat → Watch (Option Value)
  | .value e, start => do
    let v ← e.watch call owner progress env start
    return some v
  | .placeholder _, _ => return none

def watchArguments (call : Watch.Caller) (owner : Nat) (progress : List Node) (env : Env) :
    List (Argument Expr) → Nat → Nat → Watch (List (Option Value))
  | [], _, _ => return []
  | a :: as, i, start => do
    let v ← watchArgument call owner progress env a start
    let vs ← watchArguments call owner progress env as (i + 1)
      (start + Fragment.size (argumentLayout i a) + 1)
    return v :: vs

def watchStages (call : Watch.Caller) (owner : Nat) (progress : List Node) (env : Env) :
    List (Stage Expr) → Nat → Value → Watch Value
  | [], _, v => return v
  | ⟨optional, body⟩ :: ss, start, v => do
    if optional && v.isNullish then return v
    else
      let first := start + (stageHead optional).length
      let w ← body.watch call owner progress (env.push ⟨[topicName], [v]⟩) first
      watchStages call owner progress env ss (first + body.width + stageClose.length + 1) w

def watchDeclarations (call : Watch.Caller) (owner : Nat) (progress : List Node) (env : Env) :
    List (Declaration Expr) → Nat → Watch Env
  | [], _ => return env
  | ⟨name, init, _⟩ :: ds, start => do
    let first := start + valueHead.length
    let v ← init.watch call owner progress env first
    watchDeclarations call owner progress (env.push ⟨[name.text], [v]⟩) ds
      (first + init.width + statementClose.length + nameHead.length + (quoted name.text).length +
        statementClose.length)

end

end Expr

namespace Node

def run (call : Watch.Caller) (progress : List Node) (n : Node) (env : Env) : Watch Value :=
  n.tree.watch call n.owner progress env n.start

def caller (depth : Nat) : Watch.Caller := Watch.call run depth

def watch (depth : Nat) (env : Env) (n : Node) : Watch Value := run (caller depth) [] n env

end Node

end ExprLang
