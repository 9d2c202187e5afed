import ExprLang.Json

/-!
Building values from JSON documents. A record is an object with the named members, in any order and
among others, or an array of its fields. A variant is a single-member object or a bare string. The
room is the number of arrays and objects that may still be nested; parts nobody asks for take none.
-/
namespace ExprLang

abbrev Decoder (α : Type) : Type := Nat → Json → Option α

namespace Decoder

def string : Decoder String
  | _, .string s => some s
  | _, _ => none

def bool : Decoder Bool
  | _, .bool b => some b
  | _, _ => none

def double : Decoder Float
  | _, .number n => some n.toFloat
  | _, _ => none

def natBelow (bound : Nat) : Decoder Nat
  | _, .number (.integer n) => if 0 ≤ n ∧ n < bound then some n.toNat else none
  | _, _ => none

def nullable {α : Type} (d : Decoder α) : Decoder (Option α)
  | _, .null => some none
  | room, j => (d room j).map some

def list {α : Type} (d : Decoder α) : Decoder (List α)
  | room + 1, .array items => items.mapM (d room)
  | _, _ => none

/-- The value of the only member of a name; none when the name is repeated. -/
def member? (members : List (String × Json)) (name : String) : Option (Option Json) :=
  match members.filter fun m => m.1 == name with
  | [] => some none
  | [m] => some (some m.2)
  | _ => none

/-- The fields of a record; a missing one may be acceptable. -/
def fields {α : Type} (names : List String) (build : Nat → List (Option Json) → Option α) :
    Decoder α
  | room + 1, .object members => (names.mapM (member? members)).bind (build room)
  | room + 1, .array items =>
    if items.length = names.length then build room (items.map some) else none
  | _, _ => none

/-- The name of a variant and its content; a bare name stands for one without content. -/
def variant {α : Type} (build : String → Nat → Json → Option α) : Decoder α
  | room, .string name => build name room .null
  | room + 1, .object [(name, content)] => build name room content
  | _, _ => none

def unit {α : Type} (a : α) : Decoder α
  | _, .null => some a
  | _, _ => none

end Decoder

end ExprLang
