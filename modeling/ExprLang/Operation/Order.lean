import ExprLang.Number.BigInteger
import ExprLang.Number.Reading
import ExprLang.Operation.Coercion
import ExprLang.Text.Blank
import ExprLang.Text.Units

/-!
Equality and order of values. Strings are ordered by UTF-16 code units; a number and a big integer
by the double that stands for the latter; a string is read as a number of the other side's kind.
-/
namespace ExprLang

def Text.radixNumber (radix : Nat) (ds : List Char) : Float :=
  if ds.isEmpty then Binary64.nan
  else match ds.mapM (Reading.digit? radix) with
    | some values => Reading.radixValue radix values
    | none => Binary64.nan

/-- The number a text denotes as an operand, white space at its ends aside. The empty text is
zero. -/
def Text.toNumber (s : String) : Float :=
  match Text.trim s.toList with
  | [] => Binary64.ofNat 0
  | '0' :: 'x' :: ds | '0' :: 'X' :: ds => Text.radixNumber 16 ds
  | '0' :: 'o' :: ds | '0' :: 'O' :: ds => Text.radixNumber 8 ds
  | '0' :: 'b' :: ds | '0' :: 'B' :: ds => Text.radixNumber 2 ds
  | cs =>
    if cs = "Infinity".toList ∨ cs = "+Infinity".toList then Binary64.infinity false
    else if cs = "-Infinity".toList then Binary64.infinity true
    else (Reading.decimal? cs).getD Binary64.nan

/-- Digits with underscores after the first one. -/
def Reading.natural? (cs : List Char) : Option Nat :=
  match cs with
  | [] => none
  | c :: _ =>
    if c ≠ '_' ∧ cs.all fun c => c.isDigit || c = '_' then
      some (Reading.digitsValue (cs.filter Char.isDigit))
    else none

def Reading.integer? : List Char → Option Int
  | '-' :: cs => (Reading.natural? cs).map fun n => -(n : Int)
  | '+' :: cs => (Reading.natural? cs).map Int.ofNat
  | cs => (Reading.natural? cs).map Int.ofNat

def Text.toInteger? (s : String) : Option Int :=
  match Text.trim s.toList with
  | [] => some 0
  | cs => Reading.integer? cs

def Comparable.order? : Comparable → Comparable → Option Ordering
  | float x, float y => Binary64.order? x y
  | text s, text t => some (Text.compareTexts s t)
  | big m, big n => some (compare m n)
  | float x, big n => Binary64.order? x (BigInteger.toDouble n)
  | big m, float y => Binary64.order? (BigInteger.toDouble m) y
  | float x, text t => Binary64.order? x (Text.toNumber t)
  | text s, float y => Binary64.order? (Text.toNumber s) y
  | big m, text t => (Text.toInteger? t).map fun n => compare m n
  | text s, big n => (Text.toInteger? s).map fun m => compare m n

namespace Value

/-- Equality without conversion. Arrays, objects and functions are equal only to themselves. -/
def strictEquals : Value → Value → Bool
  | undefined, undefined => true
  | null, null => true
  | bool a, bool b => a == b
  | number x, number y => Binary64.same x y
  | bigint m, bigint n => m == n
  | string s, string t => s == t
  | array r _, array q _ => r == q
  | object r _, object q _ => r == q
  | function f, function g => f == g
  | _, _ => false

def order? (a b : Value) : Except EvalError (Option Ordering) := do
  let a ← Comparable.ofValue a
  let b ← Comparable.ofValue b
  return a.order? b

end Value

end ExprLang
