import ExprLang.Number.Layout
import ExprLang.Text.Quoted

/-! JSON documents and their compact text. -/
namespace ExprLang

/-- A number keeps whether it was written as an integer of at most 64 bits. -/
inductive JsonNumber where
  | integer (n : Int)
  | real (x : Float)

namespace JsonNumber

def toFloat : JsonNumber → Float
  | integer n => Binary64.ofInt n
  | real x => x

/-- The text of a number; a double that is not finite has none and is written `null`. -/
def text : JsonNumber → List Char
  | integer n => (toString n).toList
  | real x => (NumberFormat.json.write x).toList

end JsonNumber

/-- Members keep their order, and a repeated name is kept each time. -/
inductive Json where
  | null
  | bool (b : Bool)
  | number (n : JsonNumber)
  | string (s : String)
  | array (items : List Json)
  | object (members : List (String × Json))
  -- A well-formed document without a value: a number too large for a double, a string that holds
  -- half of a surrogate pair, or an object with such a name.
  | unreadable
deriving Inhabited

namespace Json

def nat (n : Nat) : Json := .number (.integer n)

mutual

def text : Json → List Char
  | null | unreadable => "null".toList
  | bool b => (if b then "true" else "false").toList
  | number n => n.text
  | string s => Text.quote s.toList
  | array items => '[' :: textItems items ++ [']']
  | object members => '\x7b' :: textMembers members ++ ['\x7d']

def textItems : List Json → List Char
  | [] => []
  | [j] => j.text
  | j :: js => j.text ++ ',' :: textItems js

def textMembers : List (String × Json) → List Char
  | [] => []
  | [(k, j)] => Text.quote k.toList ++ ':' :: j.text
  | (k, j) :: ms => Text.quote k.toList ++ ':' :: j.text ++ ',' :: textMembers ms

end

def compact (j : Json) : String := String.ofList j.text

mutual

def nesting : Json → Nat
  | array items => nestingItems items + 1
  | object members => nestingMembers members + 1
  | _ => 0

def nestingItems : List Json → Nat
  | [] => 0
  | j :: js => max j.nesting (nestingItems js)

def nestingMembers : List (String × Json) → Nat
  | [] => 0
  | (_, j) :: ms => max j.nesting (nestingMembers ms)

end

mutual

def isReadable : Json → Bool
  | array items => isReadableItems items
  | object members => isReadableMembers members
  | unreadable => false
  | _ => true

def isReadableItems : List Json → Bool
  | [] => true
  | j :: js => j.isReadable && isReadableItems js

def isReadableMembers : List (String × Json) → Bool
  | [] => true
  | (_, j) :: ms => j.isReadable && isReadableMembers ms

end

def nestingLimit : Nat := 127

end Json

end ExprLang
