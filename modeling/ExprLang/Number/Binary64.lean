/-!
Doubles through their bit pattern: the exact value of a finite double, the order of doubles, and
the double nearest to a fraction.
-/
namespace ExprLang.Binary64

def signBit : Nat := 0x8000000000000000

/-- The weight of the bit of a significand that is not stored. -/
def hiddenBit : Nat := 0x10000000000000

def magnitudeBits (x : Float) : Nat := x.toBits.toNat % signBit

def isNegative (x : Float) : Bool := signBit ≤ x.toBits.toNat

/-- The pattern of infinity; larger magnitudes are not numbers. -/
def infinityBits : Nat := 2047 * hiddenBit

def isFinite (x : Float) : Bool := magnitudeBits x < infinityBits

def isNaN (x : Float) : Bool := infinityBits < magnitudeBits x

/-- Orders the doubles that are numbers; both zeros have rank 0. -/
def rank (x : Float) : Int :=
  if isNegative x then -(magnitudeBits x : Int) else magnitudeBits x

def order? (x y : Float) : Option Ordering :=
  if isNaN x || isNaN y then none else some (compare (rank x) (rank y))

def same (x y : Float) : Bool := order? x y == some .eq

def isZero (x : Float) : Bool := magnitudeBits x == 0

structure Parts where
  significand : Nat
  exponent : Int
deriving DecidableEq, Repr

def smallestExponent : Int := -1074

def partsOfBits (bits : Nat) : Parts :=
  let field := bits / hiddenBit
  let fraction := bits % hiddenBit
  if field = 0 then ⟨fraction, smallestExponent⟩
  else ⟨hiddenBit + fraction, smallestExponent + (field - 1 : Nat)⟩

def parts (x : Float) : Parts := partsOfBits (magnitudeBits x)

/-- A quotient rounded to the nearest integer, a half to the even one. -/
def roundDiv (num den : Nat) : Nat :=
  let q := num / den
  let twice := 2 * (num % den)
  if twice < den then q
  else if den < twice then q + 1
  else if q % 2 = 0 then q else q + 1

/-- The exponent at which `num / den` has 53 bits, or the smallest there is. -/
def exponentOfRatio (num den : Nat) : Int :=
  let guess : Int := (num.log2 : Int) - den.log2 - 52
  let enough : Bool :=
    if 0 ≤ guess then den * hiddenBit * Nat.pow 2 guess.toNat ≤ num
    else den * hiddenBit ≤ num * Nat.pow 2 (-guess).toNat
  max (if enough then guess else guess - 1) smallestExponent

def bitsOfRatio (num den : Nat) : Nat :=
  if num = 0 then 0
  else
    let q := exponentOfRatio num den
    let s :=
      if 0 ≤ q then roundDiv num (den * Nat.pow 2 q.toNat)
      else roundDiv (num * Nat.pow 2 (-q).toNat) den
    min ((q - smallestExponent).toNat * hiddenBit + s) infinityBits

def ofMagnitude (negative : Bool) (bits : Nat) : Float :=
  Float.ofBits (UInt64.ofNat ((if negative then signBit else 0) + bits))

def ofRatio (negative : Bool) (num den : Nat) : Float :=
  ofMagnitude negative (bitsOfRatio num den)

def ofInt (n : Int) : Float := ofRatio (n < 0) n.natAbs 1

def ofNat (n : Nat) : Float := ofRatio false n 1

def infinity (negative : Bool) : Float := ofMagnitude negative infinityBits

def nan : Float := ofMagnitude false (infinityBits + hiddenBit / 2)

def ofParts (negative : Bool) (p : Parts) : Float :=
  if 0 ≤ p.exponent then ofRatio negative (p.significand * Nat.pow 2 p.exponent.toNat) 1
  else ofRatio negative p.significand (Nat.pow 2 (-p.exponent).toNat)

def remainder (x y : Float) : Float :=
  if !isFinite x || isNaN y || isZero y then nan
  else if !isFinite y then x
  else
    let a := parts x
    let b := parts y
    let e := min a.exponent b.exponent
    let r :=
      (a.significand * Nat.pow 2 (a.exponent - e).toNat) %
        (b.significand * Nat.pow 2 (b.exponent - e).toNat)
    ofParts (isNegative x) ⟨r, e⟩

end ExprLang.Binary64
