import ExprLang.Action
import ExprLang.Listing

/-!
A policy decides what the operations of the language mean. Operands of logical operators and stages
of pipes are handed over unevaluated.
-/
namespace ExprLang

inductive Side where
  | left | right
deriving DecidableEq, Repr

structure Policy where
  -- The branch a conditional takes.
  truthy : Value → Hook Bool
  -- Target and key of an access.
  property : Value → Value → Hook (Except EvalError Value)
  -- Callee and arguments; none stands for a call written without arguments.
  call : Value → Option (List Value) → Hook (Except Fault Value)
  -- A name that no frame binds, with the globals and the data.
  resolve : String → Option Value → Option Value → Hook (Except EvalError Value)
  -- The head of a pipe, and for each stage whether it is optional.
  pipe : Value → List Bool → Action Nat (Except Fault Value)
  unary : UnaryOp → Value → Hook (Except EvalError Value)
  binary : BinaryOp → Value → Value → Hook (Except EvalError Value)
  logical : LogicalOp → Action Side (Except Fault Value)

end ExprLang
