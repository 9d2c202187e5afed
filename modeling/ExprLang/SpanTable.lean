import ExprLang.Expr.Codec

/-! Which stretch of a listing belongs to which span of the text. -/
namespace ExprLang

structure SpanEntry where
  size : Nat
  span : Span
deriving DecidableEq, Repr

structure SpanTable where
  entries : List SpanEntry
deriving DecidableEq, Repr

namespace SpanTable

/-- Sizes and their sums are 64-bit words. -/
def wordSize : Nat := 0x10000000000000000

def totalSize : List SpanEntry → Nat
  | [] => 0
  | e :: es => (e.size + totalSize es) % wordSize

def listingSize (t : SpanTable) : Nat := totalSize t.entries

/-- The span of the first stretch whose end a position does not exceed. -/
def locateIn : List SpanEntry → Nat → Nat → Option Span
  | [], _, _ => none
  | e :: es, before, position =>
    let reached := (before + e.size) % wordSize
    if position ≤ reached then some e.span else locateIn es reached position

def locate? (t : SpanTable) (position : Nat) : Option Span := locateIn t.entries 0 position

def toJson (t : SpanTable) : Json :=
  .object [("entries", .array (t.entries.map fun e =>
    .object [("len", .nat e.size), ("span", e.span.toJson)]))]

def decodeEntry : Decoder SpanEntry :=
  .fields ["len", "span"] fun room fields =>
    match fields with
    | [some size, some span] => do
      some ⟨← Decoder.natBelow wordSize room size, ← Span.decode room span⟩
    | _ => none

def decode : Decoder SpanTable :=
  .fields ["entries"] fun room fields =>
    match fields with
    | [some entries] => (Decoder.list decodeEntry room entries).map fun es => ⟨es⟩
    | _ => none

def read? (text : String) : Option SpanTable :=
  (Json.read? text.toList).bind (decode Json.nestingLimit)

end SpanTable

end ExprLang
