import ExprLang.Json.Decoder
import ExprLang.Span

/-! The JSON form of positions and spans. -/
namespace ExprLang

namespace Position

def toJson (p : Position) : Json :=
  .object [("offset", .nat p.offset), ("line", .nat p.line), ("column", .nat p.column)]

def decode : Decoder Position :=
  .fields ["offset", "line", "column"] fun room fields =>
    match fields with
    | [some offset, some line, some column] => do
      let word := Decoder.natBelow 0x100000000
      some ⟨← word room offset, ← word room line, ← word room column⟩
    | _ => none

end Position

namespace Span

def toJson (s : Span) : Json := .object [("start", s.start.toJson), ("end", s.stop.toJson)]

def decode : Decoder Span :=
  .fields ["start", "end"] fun room fields =>
    match fields with
    | [some start, some stop] => do some ⟨← Position.decode room start, ← Position.decode room stop⟩
    | _ => none

end Span

end ExprLang
