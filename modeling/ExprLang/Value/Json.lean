import ExprLang.Json.Serializer
import ExprLang.Value

/-! Values as JSON documents and back, and as what a serializer makes of them. -/
namespace ExprLang.Value

mutual

/-- The document of a value. What JSON cannot carry becomes null; a big integer becomes a string. -/
def toJson : Value → Json
  | undefined | null | function _ => .null
  | bool b => .bool b
  | number x => if Binary64.isFinite x then .number (.real x) else .null
  | bigint n => .string (toString n)
  | string s => .string s
  | array _ items => .array (itemsJson items)
  | object _ entries => .object (entriesJson entries)

def itemsJson : List Value → List Json
  | [] => []
  | v :: vs => v.toJson :: itemsJson vs

def entriesJson : List (String × Value) → List (String × Json)
  | [] => []
  | (k, v) :: es => (k, v.toJson) :: entriesJson es

end

section

variable {ε α : Type} (out : Serializer ε α)

mutual

/-- Tells a serializer of a value; for what JSON cannot carry it is told what stands for that. -/
def serialize : Value → Except ε α
  | undefined | null | function _ => out.unit
  | bool b => out.bool b
  | number x => if Binary64.isFinite x then out.double x else out.unit
  | bigint n => out.string (toString n)
  | string s => out.string s
  | array _ items => do
    let state ← out.openArray (some items.length)
    out.closeArray (← serializeItems state items)
  | object _ entries => do
    let state ← out.openObject (some entries.length)
    out.closeObject (← serializeEntries state entries)

def serializeItems (state : out.ArrayState) : List Value → Except ε out.ArrayState
  | [] => pure state
  | v :: vs => do
    let state ← out.element state (← v.serialize)
    serializeItems state vs

def serializeEntries (state : out.ObjectState) :
    List (String × Value) → Except ε out.ObjectState
  | [] => pure state
  | (k, v) :: es => do
    let state ← out.entry state k (← v.serialize)
    serializeEntries state es

end

end

mutual

def ofJson : Json → Fresh Value
  | .null | .unreadable => pure .null
  | .bool b => pure (.bool b)
  | .number n => pure (.number n.toFloat)
  | .string s => pure (.string s)
  | .array items => do
    let items ← ofItems items
    return .array (← Fresh.reference) items
  | .object members => do
    let entries ← ofMembers members
    return .ofEntries (← Fresh.reference) entries

def ofItems : List Json → Fresh (List Value)
  | [] => pure []
  | j :: js => do
    let v ← ofJson j
    return v :: (← ofItems js)

def ofMembers : List (String × Json) → Fresh (List (String × Value))
  | [] => pure []
  | (k, j) :: ms => do
    let v ← ofJson j
    return (k, v) :: (← ofMembers ms)

end

end ExprLang.Value
