import ExprLang.Number.Shortest

/-! How the shortest digits of a double are laid out as text. -/
namespace ExprLang

/-- The decisions of a number format. A value `0.digits * 10 ^ point` is written positionally
when `point` lies within the limits, and with an exponent otherwise. -/
structure NumberFormat where
  tie : Shortest.Tie
  -- Positional for points above this one.
  above : Option Int
  -- Positional for points up to this one.
  upTo : Option Int
  -- Follows a positional integer.
  wholeMark : List Char
  -- Stands before an exponent that is not negative.
  plusMark : List Char
  zero : String
  negativeZero : String
  nan : String
  infinity : String

namespace NumberFormat

def isPositional (f : NumberFormat) (point : Int) : Bool :=
  (match f.above with | none => true | some a => a < point) &&
    (match f.upTo with | none => true | some u => point ≤ u)

def positional (f : NumberFormat) (ds : List Char) (point : Int) : List Char :=
  if (ds.length : Int) ≤ point then
    ds ++ List.replicate (point.toNat - ds.length) '0' ++ f.wholeMark
  else if 0 < point then ds.take point.toNat ++ '.' :: ds.drop point.toNat
  else '0' :: '.' :: List.replicate (-point).toNat '0' ++ ds

def exponential (f : NumberFormat) (ds : List Char) (point : Int) : List Char :=
  let e := point - 1
  let fraction := if ds.length ≤ 1 then [] else '.' :: ds.drop 1
  let sign := if e < 0 then ['-'] else f.plusMark
  ds.take 1 ++ fraction ++ 'e' :: sign ++ (toString e.natAbs).toList

def unsigned (f : NumberFormat) (d : Shortest.Digits) : List Char :=
  if f.isPositional d.point then f.positional d.digits d.point
  else f.exponential d.digits d.point

def write (f : NumberFormat) (x : Float) : String :=
  if Binary64.isNaN x then f.nan
  else if !Binary64.isFinite x then (if Binary64.isNegative x then "-" else "") ++ f.infinity
  else if Binary64.isZero x then (if Binary64.isNegative x then f.negativeZero else f.zero)
  else
    (if Binary64.isNegative x then "-" else "") ++
      String.ofList (f.unsigned (Shortest.digits f.tie x))

/-- The text of a number value: positional from 1e-6 up to below 1e21, the zeros alike. -/
def value : NumberFormat :=
  ⟨.larger, some (-6), some 21, [], ['+'], "0", "0", "NaN", "Infinity"⟩

def token : NumberFormat := ⟨.larger, none, none, [], [], "0", "-0", "NaN", "inf"⟩

def json : NumberFormat :=
  ⟨.evenDigit, some (-5), some 16, ['.', '0'], [], "0.0", "-0.0", "null", "null"⟩

end NumberFormat

end ExprLang
