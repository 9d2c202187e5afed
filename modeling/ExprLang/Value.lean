import ExprLang.Expr
import ExprLang.Json

/-!
Values. An array or object carries the reference it was made with, which tells it apart from others
of the same content. A function is a handle into the functions of a run.
-/
namespace ExprLang

inductive Value where
  | undefined
  | null
  | bool (b : Bool)
  | number (x : Float)
  | bigint (n : Int)
  | string (s : String)
  | array (reference : Nat) (items : List Value)
  -- Entries in the order in which their keys first came. No key is repeated.
  | object (reference : Nat) (entries : List (String × Value))
  | function (handle : Nat)
deriving Inhabited

namespace Value

/-- Makes references; the state is the next one that is not in use. -/
abbrev Fresh : Type → Type := StateM Nat

def Fresh.reference : Fresh Nat := fun n => (n, n + 1)

def ofInt (n : Int) : Value := .number (Binary64.ofInt n)

def ofNat (n : Nat) : Value := .ofInt n

def ofLiteral : Literal → Value
  | .number x => .number x
  | .string s => .string s
  | .boolean b => .bool b
  | .null => .null

def putEntry (entries : List (String × Value)) (entry : String × Value) :
    List (String × Value) :=
  if entries.any fun e => e.1 == entry.1 then
    entries.map fun e => if e.1 == entry.1 then entry else e
  else entries ++ [entry]

/-- Entries with repeated keys merged: the first place and the last value count. -/
def mergeEntries (entries : List (String × Value)) : List (String × Value) :=
  entries.foldl putEntry []

def ofEntries (reference : Nat) (entries : List (String × Value)) : Value :=
  .object reference (mergeEntries entries)

def isNullish : Value → Bool
  | undefined | null => true
  | _ => false

def isSimple : Value → Bool
  | array .. | object .. | function _ => false
  | _ => true

def isObject : Value → Bool
  | array .. | object .. => true
  | _ => false

def isFunction : Value → Bool
  | function _ => true
  | _ => false

def number? : Value → Option Float
  | number x => some x
  | _ => none

def string? : Value → Option String
  | string s => some s
  | _ => none

def kind : Value → String
  | undefined => "undefined"
  | null => "Null"
  | bool _ => "boolean"
  | number x =>
    if Binary64.isFinite x then "number"
    else if Binary64.isNaN x then "NaN"
    else if Binary64.isNegative x then "-Infinity" else "Infinity"
  | bigint _ => "bigint"
  | string _ => "string"
  | array .. => "Array"
  | object .. => "Object"
  | function _ => "function"

def typeTag : Value → String
  | undefined => "undefined"
  | null | array .. | object .. => "object"
  | bool _ => "boolean"
  | number _ => "number"
  | bigint _ => "bigint"
  | string _ => "string"
  | function _ => "function"

def text : Value → String
  | undefined => "undefined"
  | null => "null"
  | bool b => if b then "true" else "false"
  | number x => NumberFormat.value.write x
  | bigint n => toString n
  | string s => s
  | array .. => "[object Array]"
  | object .. => "[object Object]"
  | function _ => "[object Function]"

def propertyKey? (v : Value) : Option String := if v.isSimple then some v.text else none

/-- The index below `size` whose decimal text a key is. -/
def arrayIndex? (key : String) (size : Nat) : Option Nat :=
  let digits := key.toList
  if digits.isEmpty || !digits.all Char.isDigit then none
  else
    let n := digits.foldl (fun n d => 10 * n + (d.toNat - '0'.toNat)) 0
    if n < size ∧ toString n = key then some n else none

/-- The property that a value itself has under a key; nothing is inherited. -/
def ownProperty? (v : Value) (key : String) : Option Value :=
  match v with
  | object _ entries => entries.lookup key
  | array _ items =>
    if key = "length" then some (.ofNat items.length)
    else (arrayIndex? key items.length).bind fun i => items[i]?
  | _ => none

def hasOwnProperty (v : Value) (key : String) : Bool :=
  match v with
  | object _ entries => entries.any fun e => e.1 == key
  | array _ items => key = "length" || (arrayIndex? key items.length).isSome
  | _ => false

mutual

/-- Equality of content. Objects may order their entries differently; functions are equal only to
themselves. -/
def sameContent : Value → Value → Bool
  | undefined, undefined => true
  | null, null => true
  | bool a, bool b => a == b
  | number x, number y => Binary64.same x y
  | bigint m, bigint n => m == n
  | string s, string t => s == t
  | array _ xs, array _ ys => sameItems xs ys
  | object _ es, object _ fs => es.length == fs.length && entriesWithin es fs
  | function f, function g => f == g
  | _, _ => false

def sameItems : List Value → List Value → Bool
  | [], [] => true
  | x :: xs, y :: ys => sameContent x y && sameItems xs ys
  | _, _ => false

def entriesWithin : List (String × Value) → List (String × Value) → Bool
  | [], _ => true
  | (k, x) :: es, fs =>
    (match fs.lookup k with | some y => sameContent x y | none => false) && entriesWithin es fs

end

end Value

end ExprLang
