import ExprLang.Operation.Coercion

/-! Arithmetic on numbers and on big integers, which do not mix. -/
namespace ExprLang.Arithmetic

/-- Applies the operation of the operands' kind; the left operand is looked at first. -/
def apply (float : Float → Float → Float) (big : Int → Int → Except EvalError Int) (a b : Value) :
    Except EvalError Value := do
  let a ← Numeric.ofValue a
  let b ← Numeric.ofValue b
  match a, b with
  | .float x, .float y => return .number (float x y)
  | .big m, .big n => return .bigint (← big m n)
  | _, _ => throw .mixedNumeric

def divisionByZero : EvalError := .range "Division by zero"

def add : Value → Value → Except EvalError Value := apply (· + ·) fun m n => .ok (m + n)

def subtract : Value → Value → Except EvalError Value := apply (· - ·) fun m n => .ok (m - n)

def multiply : Value → Value → Except EvalError Value := apply (· * ·) fun m n => .ok (m * n)

def divide : Value → Value → Except EvalError Value :=
  apply (· / ·) fun m n => if n = 0 then .error divisionByZero else .ok (m.tdiv n)

def remainder : Value → Value → Except EvalError Value :=
  apply Binary64.remainder fun m n => if n = 0 then .error divisionByZero else .ok (m.tmod n)

def bitLength (n : Nat) : Nat := if n = 0 then 0 else n.log2 + 1

def maxBits : Nat := 0x40000000

def signedPower (base : Int) (exponent : Nat) : Int :=
  let magnitude : Int := base.natAbs.pow exponent
  if base < 0 ∧ exponent % 2 = 1 then -magnitude else magnitude

def maxWord : Nat := 0xFFFFFFFFFFFFFFFF

def maxHalfWord : Nat := 0xFFFFFFFF

/-- A product of words. One that is no word stays at the greatest word. -/
def saturatingMul (m n : Nat) : Nat := min (m * n) maxWord

/-- The exponent for a base of so many bits, which must be a word, give a power that is not too
large, and fit in half a word. -/
def boundedExponent? (bits exponent : Nat) : Option Nat :=
  if exponent ≤ maxWord ∧ saturatingMul bits exponent ≤ maxBits ∧ exponent ≤ maxHalfWord then
    some exponent
  else none

/-- Powers of 0, 1 and -1 depend only on whether the exponent is zero, odd or even. -/
def bigPower (base exponent : Int) : Except EvalError Int :=
  if exponent < 0 then .error (.range "Exponent must be non-negative")
  else
    let bits := bitLength base.natAbs
    let e := exponent.toNat
    if bits ≤ 1 then .ok (signedPower base (if e = 0 then 0 else if e % 2 = 0 then 2 else 1))
    else match boundedExponent? bits e with
      | some e => .ok (signedPower base e)
      | none => .error (.range "Maximum BigInt size exceeded")

def power : Value → Value → Except EvalError Value := apply Float.pow bigPower

def negate (v : Value) : Except EvalError Value := do
  match ← Numeric.ofValue v with
  | .float x => return .number (-x)
  | .big n => return .bigint (-n)

end ExprLang.Arithmetic
