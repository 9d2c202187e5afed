import ExprLang.Operation.Access
import ExprLang.Operation.Arithmetic
import ExprLang.Operation.Order
import ExprLang.Policy

/-! The standard policy. -/
namespace ExprLang.Policy.Standard

def unary : UnaryOp → Value → Except EvalError Value
  | .plus, v => (Numeric.ofValue v).map Numeric.toValue
  | .minus, v => Arithmetic.negate v
  | .not, v => .ok (.bool !v.isTruthy)
  | .typeof, v => .ok (.string v.typeTag)

def relation (test : Ordering → Bool) (a b : Value) : Except EvalError Value :=
  (a.order? b).map fun o => .bool (o.any test)

def binary : BinaryOp → Value → Value → Except EvalError Value
  | .add, a, b => Arithmetic.add a b
  | .sub, a, b => Arithmetic.subtract a b
  | .mul, a, b => Arithmetic.multiply a b
  | .div, a, b => Arithmetic.divide a b
  | .mod, a, b => Arithmetic.remainder a b
  | .pow, a, b => Arithmetic.power a b
  | .concat, a, b => .ok (a.concat b)
  | .eq, a, b => .ok (.bool (a.strictEquals b))
  | .notEq, a, b => .ok (.bool !a.strictEquals b)
  | .less, a, b => relation Ordering.isLT a b
  | .lessEq, a, b => relation Ordering.isLE a b
  | .greater, a, b => relation Ordering.isGT a b
  | .greaterEq, a, b => relation Ordering.isGE a b
  | .in_, a, b => Value.hasKey a b

/-- Evaluates the right operand only when the left one does not decide. -/
def logical : LogicalOp → Action Side (Except Fault Value)
  | .and => .run .left .undefined <| .orFault fun v =>
    if v.isTruthy then .run .right .undefined <| .orFault fun w => .ok (.bool w.isTruthy)
    else .ok (.bool false)
  | .or => .run .left .undefined <| .orFault fun v =>
    if v.isTruthy then .ok (.bool true)
    else .run .right .undefined <| .orFault fun w => .ok (.bool w.isTruthy)

def call (callee : Value) (arguments : Option (List Value)) : Hook (Except Fault Value) :=
  .call callee (arguments.getD []) .answer

/-- `undefined`, then the globals, then the data. -/
def resolve (name : String) (globals data : Option Value) : Except EvalError Value :=
  if name = topicName then .error .unboundTopic
  else if name = "undefined" then .ok .undefined
  else
    match (globals.bind (·.ownProperty? name)).or (data.bind (·.ownProperty? name)) with
    | some v => .ok v
    | none => .error (.unknownIdentifier name)

/-- Passes a value through the stages from the one numbered `i` on. An optional stage ends the pipe
when its input is null or undefined. -/
def runStages (i : Nat) (v : Value) : List Bool → Action Nat (Except Fault Value)
  | [] => .ok v
  | optional :: rest =>
    if optional && v.isNullish then .ok v
    else .run i v <| .orFault fun w => runStages (i + 1) w rest

def pipe (head : Value) (optionals : List Bool) : Action Nat (Except Fault Value) :=
  runStages 0 head optionals

end Standard

def standard : Policy where
  truthy v := .answer v.isTruthy
  property target key := .answer (target.property key)
  call := Standard.call
  resolve name globals data := .answer (Standard.resolve name globals data)
  pipe := Standard.pipe
  unary op v := .answer (Standard.unary op v)
  binary op a b := .answer (Standard.binary op a b)
  logical := Standard.logical

end ExprLang.Policy
