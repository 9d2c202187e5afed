import ExprLang.CompileError
import ExprLang.Json.Reader
import ExprLang.Span.Codec

/-! The JSON form of errors. -/
namespace ExprLang

namespace ErrorCategory

def decode : Decoder ErrorCategory :=
  .variant fun name room content =>
    match name with
    | "syntax" => Decoder.unit .syntactic room content
    | "scope" => Decoder.unit .scope room content
    | _ => none

end ErrorCategory

namespace CompileError

def toJson (e : CompileError) : Json :=
  .object [("code", .nat e.code), ("category", .string e.category.text),
    ("message", .string e.message), ("expression", .string e.expression), ("span", e.span.toJson)]

def decode : Decoder CompileError :=
  .fields ["code", "category", "message", "expression", "span"] fun room fields =>
    match fields with
    | [some code, some category, some message, some expression, some span] => do
      some ⟨← Decoder.natBelow 0x10000 room code, ← ErrorCategory.decode room category,
        ← Decoder.string room message, ← Decoder.string room expression, ← Span.decode room span⟩
    | _ => none

def read? (text : String) : Option CompileError :=
  (Json.read? text.toList).bind (decode Json.nestingLimit)

end CompileError

end ExprLang
