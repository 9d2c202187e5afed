import ExprLang.Operation.Access
import ExprLang.Operation.Arithmetic
import ExprLang.Operation.Order
import ExprLang.Action

/-! A library of host functions. A missing argument reads as undefined. -/
namespace ExprLang

namespace Host

def first (vs : List Value) : Value := vs.head?.getD .undefined

def second (vs : List Value) : Value := first (vs.drop 1)

def third (vs : List Value) : Value := first (vs.drop 2)

def operator (f : Value → Value → Except EvalError Value) : HostFunction :=
  .of fun vs => .ofExcept (f (first vs) (second vs))

/-- Calls the first argument with the others and hands over what comes back. -/
def applyThen (next : Except Fault Value → Hook (Except Fault Value)) : HostFunction :=
  .of fun vs => .call (first vs) (vs.drop 1) next

def dropSite : Except Fault Value → Hook (Except Fault Value)
  | .ok v => .ok v
  | .error f => .fail f.error

def faultText : Except Fault Value → Hook (Except Fault Value)
  | .ok v => .ok v
  | .error f => .ok (.string f.error.message)

def withItems (next : List Value → Hook (Except Fault Value)) (vs : List Value) :
    Hook (Except Fault Value) :=
  match first vs with
  | .array _ items => next items
  | v => .fail (.unexpectedType ["Array"] v)

def mapItems (f : Value) (i : Nat) (made : List Value) :
    List Value → Hook (Except Fault Value)
  | [] => .array made
  | v :: vs => .call f [v, .ofNat i] <| .orFault fun w => mapItems f (i + 1) (made ++ [w]) vs

def filterItems (f : Value) (kept : List Value) : List Value → Hook (Except Fault Value)
  | [] => .array kept
  | v :: vs =>
    .call f [v] <| .orFault fun w => filterItems f (if w.isTruthy then kept ++ [v] else kept) vs

def reduceItems (f acc : Value) : List Value → Hook (Except Fault Value)
  | [] => .ok acc
  | v :: vs => .call f [acc, v] <| .orFault fun w => reduceItems f w vs

def bigOf (v : Value) : Except EvalError Value :=
  match Reading.integer? v.text.toList with
  | some n => .ok (.bigint n)
  | none => .error (.host "not an integer")

def function? : String → Option HostFunction
  | "add" => some (operator Arithmetic.add)
  | "sub" => some (operator Arithmetic.subtract)
  | "mul" => some (operator Arithmetic.multiply)
  | "div" => some (operator Arithmetic.divide)
  | "concat" => some (operator fun a b => .ok (a.concat b))
  | "count" => some <| .of fun vs => .ok (.ofNat vs.length)
  | "args" => some <| .of fun vs => .array vs
  | "id" => some <| .of fun vs => .ok (first vs)
  | "trace" => some <| .of fun vs => .ok (first vs)
  | "fail" => some <| .of fun vs => .fail (.host ("host failure: " ++ (first vs).text))
  | "range" => some <| .of fun vs => .fail (.range (first vs).text)
  | "reject" => some <| .of fun vs => .fail (.unexpectedType ((vs.drop 1).map (·.text)) (first vs))
  | "big" => some <| .of fun vs => .ofExcept (bigOf (first vs))
  | "apply" => some (applyThen .answer)
  | "applyDrop" => some (applyThen dropSite)
  | "try" => some (applyThen faultText)
  | "map" => some <| .of fun vs => withItems (mapItems (second vs) 0 []) vs
  | "filter" => some <| .of fun vs => withItems (filterItems (second vs) []) vs
  | "reduce" => some <| .of fun vs => withItems (reduceItems (second vs) (third vs)) vs
  | _ => none

end Host

end ExprLang
