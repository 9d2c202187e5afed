import ExprLang.Number.Binary64

/-!
The shortest decimal that reads back as a given double: the fewest digits whose decimal lies in the
interval of reals that round to the double, and of two such decimals the nearer one. Which of two
equally near ones is taken is for the format that writes it.
-/
namespace ExprLang.Shortest

open Binary64

/-- A positive fraction `num / den` with the half-way points to its neighbours, `below / den` and
`above / den`. The ends belong to the interval when `closed`. -/
structure Interval where
  below : Nat
  num : Nat
  above : Nat
  den : Nat
  closed : Bool
deriving Repr

/-- The interval of a finite double that is not zero. Below a power of two the doubles lie twice as
dense. -/
def interval (p : Parts) : Interval :=
  let m := 4 * p.significand
  let gap := if p.significand = hiddenBit ∧ p.exponent ≠ smallestExponent then 1 else 2
  let scale := Nat.pow 2 (p.exponent - 2).toNat
  ⟨(m - gap) * scale, m * scale, (m + 2) * scale, Nat.pow 2 (2 - p.exponent).toNat,
    p.significand % 2 == 0⟩

/-- Whether `num / den`, with the interval's `den`, lies in the interval once both sides are
multiplied by `scale`. -/
def Interval.contains (i : Interval) (num scale : Nat) : Bool :=
  if i.closed then i.below * scale ≤ num && num ≤ i.above * scale
  else i.below * scale < num && num < i.above * scale

def digitCount (n : Nat) : Nat := (Nat.toDigits 10 n).length

def leadingExponent (num den : Nat) : Int :=
  if den ≤ num then (digitCount (num / den) : Int) - 1
  else
    let d := digitCount (den / num)
    if den ≤ num * Nat.pow 10 (d - 1) then 1 - (d : Int) else -(d : Int)

structure Decimal where
  significand : Nat
  exponent : Int
deriving DecidableEq, Repr

inductive Tie where
  | larger
  | evenDigit
deriving DecidableEq, Repr

def Tie.takesSmaller : Tie → Nat → Bool
  | larger, _ => false
  | evenDigit, low => low % 2 = 0

/-- The decimal of the grid `10 ^ exponent` that lies in the interval, the nearer one if both
neighbours of the value do. -/
def onGrid? (tie : Tie) (i : Interval) (exponent : Int) : Option Decimal :=
  let scale := Nat.pow 10 (-exponent).toNat
  let unit := i.den * Nat.pow 10 exponent.toNat
  let value := i.num * scale
  let low := value / unit
  let high := low + 1
  let lowFits := 0 < low && i.contains (low * unit) scale
  let highFits := i.contains (high * unit) scale
  if lowFits && highFits then
    let below := value - low * unit
    let above := high * unit - value
    if below < above || (below = above && tie.takesSmaller low) then some ⟨low, exponent⟩
    else some ⟨high, exponent⟩
  else if lowFits then some ⟨low, exponent⟩
  else if highFits then some ⟨high, exponent⟩
  else none

def search (tie : Tie) (i : Interval) : Nat → Int → Option Decimal
  | 0, _ => none
  | n + 1, exponent => (onGrid? tie i exponent).or (search tie i n (exponent - 1))

/-- The shortest decimal of a finite magnitude; seventeen digits always suffice. -/
def ofParts (tie : Tie) (p : Parts) : Decimal :=
  if p.significand = 0 then ⟨0, 0⟩
  else
    let i := interval p
    (search tie i 17 (leadingExponent i.num i.den)).getD ⟨p.significand, p.exponent⟩

/-- The digits of a decimal without zeros at the end, and the place of its point: the value is
`0.digits * 10 ^ point`. -/
structure Digits where
  digits : List Char
  point : Int
deriving DecidableEq, Repr

def Decimal.digits (d : Decimal) : Digits :=
  let ds := Nat.toDigits 10 d.significand
  ⟨(ds.reverse.dropWhile (· = '0')).reverse, d.exponent + ds.length⟩

def digits (tie : Tie) (x : Float) : Digits := (ofParts tie (parts x)).digits

end ExprLang.Shortest
