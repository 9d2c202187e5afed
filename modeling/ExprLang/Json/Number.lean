import ExprLang.Json
import ExprLang.Number.Reading

/-!
The value of a JSON number. Its digits are gathered in a 64-bit significand; digits that do not fit
any more only move the point, and the significand is then scaled by one power of ten.
-/
namespace ExprLang.JsonNumber

def maxSignificand : Nat := 0xFFFFFFFFFFFFFFFF

/-- Takes in digits while the significand fits; also says how many were taken. -/
def gather (significand : Nat) : List Char → Nat × Nat
  | [] => (significand, 0)
  | d :: ds =>
    let next := significand * 10 + (d.toNat - '0'.toNat)
    if maxSignificand < next then (significand, 0)
    else
      let (s, n) := gather next ds
      (s, n + 1)

def powerOfTen (n : Nat) : Float := Binary64.ofNat (Nat.pow 10 n)

def scale (x : Float) (exponent : Int) : Nat → Option Float
  | 0 => some x
  | steps + 1 =>
    if 0 ≤ exponent then
      if exponent ≤ 308 then
        let y := x * powerOfTen exponent.toNat
        if Binary64.isFinite y then some y else none
      else if Binary64.isZero x then some x else none
    else if -308 ≤ exponent then some (x / powerOfTen (-exponent).toNat)
    else if Binary64.isZero x then some x
    else scale (x / powerOfTen 308) (exponent + 308) steps

def negateIf (negative : Bool) (x : Float) : Float := if negative then -x else x

/-- The double of a significand and a decimal exponent. A significand vanishes after three
steps, so four reach any exponent. -/
def ofSignificand (negative : Bool) (significand : Nat) (exponent : Int) : Option Float :=
  (scale (Binary64.ofNat significand) exponent 4).map (negateIf negative)

def maxExponent : Nat := 0x7FFFFFFF

structure Literal where
  negative : Bool
  whole : List Char
  fraction : List Char
  exponent : Option (Bool × List Char)

/-- An integer that fits in 64 bits stays one, except the negative zero. -/
def ofInteger (negative : Bool) (n : Nat) : JsonNumber :=
  if !negative then integer n
  else if n = 0 ∨ 0x8000000000000000 < n then real (negateIf true (Binary64.ofNat n))
  else integer (-n)

def ofLiteral (l : Literal) : Option JsonNumber :=
  let (head, taken) := gather 0 l.whole
  let moved := l.whole.length - taken
  if moved = 0 && l.fraction.isEmpty && l.exponent.isNone then some (ofInteger l.negative head)
  else
    let (significand, places) := gather head l.fraction
    let start : Int := moved - places
    match l.exponent with
    | none => (ofSignificand l.negative significand start).map real
    | some (down, digits) =>
      let e := Reading.digitsValue digits
      if maxExponent < e then
        if significand ≠ 0 && !down then none
        else some (real (negateIf l.negative (Binary64.ofNat 0)))
      else
        (ofSignificand l.negative significand (if down then start - e else start + e)).map real

end ExprLang.JsonNumber
