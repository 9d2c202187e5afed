import ExprLang.EvalError

/-! Which values an operation accepts, and what they count as. -/
namespace ExprLang

namespace Value

def isTruthy : Value → Bool
  | undefined | null => false
  | bool b => b
  | number x => !Binary64.isZero x && !Binary64.isNaN x
  | bigint n => n != 0
  | string s => !s.isEmpty
  | array .. | object .. | function _ => true

end Value

inductive Numeric where
  | float (x : Float)
  | big (n : Int)

namespace Numeric

def toValue : Numeric → Value
  | float x => .number x
  | big n => .bigint n

def ofValue : Value → Except EvalError Numeric
  | .number x =>
    if Binary64.isFinite x then .ok (.float x)
    else .error (.unexpectedType ["number", "bigint"] (.number x))
  | .bigint n => .ok (.big n)
  | v => .error (.unexpectedType ["number", "bigint"] v)

end Numeric

inductive Comparable where
  | float (x : Float)
  | big (n : Int)
  | text (s : String)

namespace Comparable

def toValue : Comparable → Value
  | float x => .number x
  | big n => .bigint n
  | text s => .string s

def ofValue : Value → Except EvalError Comparable
  | .number x =>
    if Binary64.isFinite x then .ok (.float x)
    else .error (.unexpectedType ["number", "bigint", "string"] (.number x))
  | .bigint n => .ok (.big n)
  | .string s => .ok (.text s)
  | v => .error (.unexpectedType ["number", "bigint", "string"] v)

end Comparable

def Value.handle : Value → Except EvalError Nat
  | .function h => .ok h
  | v => .error (.unexpectedType ["function"] v)

end ExprLang
