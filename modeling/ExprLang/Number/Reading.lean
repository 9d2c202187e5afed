import ExprLang.Number.Binary64

/-! Numbers written in decimal or in another radix, read as doubles. -/
namespace ExprLang.Reading

def digitsValue (ds : List Char) : Nat := ds.foldl (fun n d => 10 * n + (d.toNat - '0'.toNat)) 0

structure Numeral where
  negative : Bool
  whole : List Char
  fraction : List Char
  exponent : Int
deriving DecidableEq, Repr

/-- The double nearest to a numeral. Exponents far outside the range of doubles are settled
without computing the power of ten. -/
def Numeral.toFloat (n : Numeral) : Float :=
  let significand := digitsValue (n.whole ++ n.fraction)
  let exponent := n.exponent - n.fraction.length
  let size := exponent + (Nat.toDigits 10 significand).length
  if significand = 0 then Binary64.ofRatio n.negative 0 1
  else if 310 < size then Binary64.infinity n.negative
  else if size < -330 then Binary64.ofRatio n.negative 0 1
  else if 0 ≤ exponent then Binary64.ofRatio n.negative (significand * Nat.pow 10 exponent.toNat) 1
  else Binary64.ofRatio n.negative significand (Nat.pow 10 (-exponent).toNat)

def splitSign : List Char → Bool × List Char
  | '-' :: cs => (true, cs)
  | '+' :: cs => (false, cs)
  | cs => (false, cs)

def signed (negative : Bool) (n : Nat) : Int := if negative then -(n : Int) else n

/-- An exponent part that reaches to the end, 0 when there is none. -/
def exponent? : List Char → Option Int
  | [] => some 0
  | c :: cs =>
    if c = 'e' ∨ c = 'E' then
      let (negative, ds) := splitSign cs
      if ds.isEmpty || !ds.all Char.isDigit then none else some (signed negative (digitsValue ds))
    else none

/-- A decimal with an optional sign: digits, a point with digits on at least one of its sides, and
an exponent may follow. -/
def numeral? (cs : List Char) : Option Numeral :=
  let (negative, body) := splitSign cs
  let whole := body.takeWhile Char.isDigit
  match body.dropWhile Char.isDigit with
  | '.' :: rest =>
    let fraction := rest.takeWhile Char.isDigit
    if whole.isEmpty && fraction.isEmpty then none
    else (exponent? (rest.dropWhile Char.isDigit)).map (⟨negative, whole, fraction, ·⟩)
  | rest => if whole.isEmpty then none else (exponent? rest).map (⟨negative, whole, [], ·⟩)

def decimal? (cs : List Char) : Option Float := (numeral? cs).map Numeral.toFloat

def digit? (radix : Nat) (c : Char) : Option Nat :=
  let value? :=
    if c.isDigit then some (c.toNat - '0'.toNat)
    else if 'a' ≤ c ∧ c ≤ 'f' then some (c.toNat - 'a'.toNat + 10)
    else if 'A' ≤ c ∧ c ≤ 'F' then some (c.toNat - 'A'.toNat + 10)
    else none
  value?.filter (· < radix)

/-- The value of digits accumulated as a double, rounding after each one. -/
def radixValue (radix : Nat) (ds : List Nat) : Float :=
  ds.foldl (fun x d => x * Binary64.ofNat radix + Binary64.ofNat d) (Binary64.ofNat 0)

end ExprLang.Reading
