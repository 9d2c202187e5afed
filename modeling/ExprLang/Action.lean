import ExprLang.EvalError

/-!
What host functions and policies do: they answer, or first ask for something and go on with what
comes back. They can have a function called, have one of the operands they were given evaluated,
obtain a reference for a new array or object, make a function of their own, and keep values in cells
from one call to the next.
-/
namespace ExprLang

/-- Answers in `α`, operands in `ι`, and functions made in `φ`. -/
inductive Request (φ ι α : Type) where
  | answer (a : α)
  | call (callee : Value) (arguments : List Value) (next : Except Fault Value → Request φ ι α)
  -- Evaluates an operand; those that take no input ignore it.
  | run (operand : ι) (input : Value) (next : Except Fault Value → Request φ ι α)
  | fresh (next : Nat → Request φ ι α)
  | make (name : String) (function : φ) (next : Value → Request φ ι α)
  | load (cell : Nat) (next : Value → Request φ ι α)
  | save (cell : Nat) (v : Value) (next : Request φ ι α)

inductive HostFunction where
  | of (respond : List Value → Request HostFunction Empty (Except Fault Value))

namespace HostFunction

def respond : HostFunction → List Value → Request HostFunction Empty (Except Fault Value)
  | of f => f

end HostFunction

abbrev Action (ι α : Type) : Type := Request HostFunction ι α

abbrev Hook (α : Type) : Type := Action Empty α

namespace Request

variable {φ ι : Type}

def ok (v : Value) : Request φ ι (Except Fault Value) := .answer (.ok v)

def fail (e : EvalError) : Request φ ι (Except Fault Value) := .answer (.error (.new e))

def ofExcept : Except EvalError Value → Request φ ι (Except Fault Value)
  | .ok v => ok v
  | .error e => fail e

def orFault (next : Value → Request φ ι (Except Fault Value)) :
    Except Fault Value → Request φ ι (Except Fault Value)
  | .ok v => next v
  | .error f => .answer (.error f)

def array (items : List Value) : Request φ ι (Except Fault Value) :=
  .fresh fun r => ok (.array r items)

end Request

end ExprLang
