import ExprLang.Json

/-!
Serializers: they are told of a value part by part and give what they make of it, which for an array
or an object is put together from what they made of its parts. Two are written out here; the one
builds the document, the other writes its compact text.
-/
namespace ExprLang

/-- The calls a serializer answers, each of which may fail. A size is announced when it is known. -/
structure Serializer (ε α : Type) where
  ArrayState : Type
  ObjectState : Type
  unit : Except ε α
  bool (b : Bool) : Except ε α
  double (x : Float) : Except ε α
  string (s : String) : Except ε α
  openArray (size : Option Nat) : Except ε ArrayState
  element (state : ArrayState) (item : α) : Except ε ArrayState
  closeArray (state : ArrayState) : Except ε α
  openObject (size : Option Nat) : Except ε ObjectState
  entry (state : ObjectState) (name : String) (value : α) : Except ε ObjectState
  closeObject (state : ObjectState) : Except ε α

namespace Serializer

variable {ε : Type}

/-- A new name goes last; a name that is there keeps its place and gets the new value. -/
def putMember {α : Type} (members : List (String × α)) (member : String × α) :
    List (String × α) :=
  if members.any fun m => m.1 == member.1 then
    members.map fun m => if m.1 == member.1 then member else m
  else members ++ [member]

/-- Builds the document. -/
def document : Serializer ε Json where
  ArrayState := List Json
  ObjectState := List (String × Json)
  unit := .ok .null
  bool b := .ok (.bool b)
  double x := .ok (if Binary64.isFinite x then .number (.real x) else .null)
  string s := .ok (.string s)
  openArray _ := .ok []
  element items item := .ok (items ++ [item])
  closeArray items := .ok (.array items)
  openObject _ := .ok []
  entry members name value := .ok (putMember members (name, value))
  closeObject members := .ok (.object members)

inductive Filling where
  -- Announced as empty and closed at once.
  | closed
  | fresh
  | begun
deriving DecidableEq

/-- A container of which a part is written. -/
structure Partial where
  written : List Char
  filling : Filling

namespace Partial

def opening (first last : Char) (size : Option Nat) : Partial :=
  if size = some 0 then ⟨[first, last], .closed⟩ else ⟨[first], .fresh⟩

def add (p : Partial) (part : List Char) : Partial :=
  ⟨p.written ++ (if p.filling = .fresh then [] else [',']) ++ part, .begun⟩

def closing (last : Char) (p : Partial) : List Char :=
  if p.filling = .closed then p.written else p.written ++ [last]

end Partial

/-- Writes the compact text. -/
def compact : Serializer ε (List Char) where
  ArrayState := Partial
  ObjectState := Partial
  unit := .ok "null".toList
  bool b := .ok (if b then "true" else "false").toList
  double x := .ok (if Binary64.isFinite x then (NumberFormat.json.write x).toList
    else "null".toList)
  string s := .ok (Text.quote s.toList)
  openArray size := .ok (.opening '[' ']' size)
  element p item := .ok (p.add item)
  closeArray p := .ok (p.closing ']')
  openObject size := .ok (.opening '\x7b' '\x7d' size)
  entry p name value := .ok (p.add (Text.quote name.toList ++ ':' :: value))
  closeObject p := .ok (p.closing '\x7d')

end Serializer

end ExprLang
