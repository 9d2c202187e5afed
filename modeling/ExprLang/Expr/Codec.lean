import ExprLang.Expr
import ExprLang.Json.Reader
import ExprLang.Span.Codec

/-! The JSON form of expression trees. -/
namespace ExprLang

namespace Name

def toJson (n : Name) : Json := .object [("name", .string n.text), ("span", n.span.toJson)]

def decode : Decoder Name :=
  .fields ["name", "span"] fun room fields =>
    match fields with
    | [some text, some span] => do some ⟨← Decoder.string room text, ← Span.decode room span⟩
    | _ => none

end Name

def numberJson (x : Float) : Json :=
  if Binary64.isFinite x then .number (.real x) else .null

namespace Literal

def toJson (number : Float → Json) : Literal → Json
  | .number x => .object [("number", number x)]
  | .string s => .object [("string", .string s)]
  | .boolean b => .object [("boolean", .bool b)]
  | .null => .string "null"

def decode : Decoder Literal :=
  .variant fun name room content =>
    match name with
    | "number" => (Decoder.double room content).map .number
    | "string" => (Decoder.string room content).map .string
    | "boolean" => (Decoder.bool room content).map .boolean
    | "null" => Decoder.unit .null room content
    | _ => none

end Literal

namespace UnaryOp

def tag : UnaryOp → String
  | plus => "plus"
  | minus => "minus"
  | not => "not"
  | typeof => "typeof"

def decode : Decoder UnaryOp :=
  .variant fun name room content =>
    (all.find? fun op => op.tag == name).bind fun op => Decoder.unit op room content

end UnaryOp

namespace BinaryOp

def tag : BinaryOp → String
  | add => "add"
  | sub => "sub"
  | mul => "mul"
  | div => "div"
  | mod => "mod"
  | pow => "pow"
  | concat => "concat"
  | eq => "eq"
  | notEq => "not_eq"
  | less => "less"
  | lessEq => "less_eq"
  | greater => "greater"
  | greaterEq => "greater_eq"
  | in_ => "in"

def decode : Decoder BinaryOp :=
  .variant fun name room content =>
    (all.find? fun op => op.tag == name).bind fun op => Decoder.unit op room content

end BinaryOp

namespace LogicalOp

def tag : LogicalOp → String
  | and => "and"
  | or => "or"

def decode : Decoder LogicalOp :=
  .variant fun name room content =>
    ([and, or].find? fun op => op.tag == name).bind fun op => Decoder.unit op room content

end LogicalOp

namespace Key

def toJson (number : Float → Json) : Key → Json
  | .name id => .object [("identifier", id.toJson)]
  | .literal l span => .object [("literal", .array [l.toJson number, span.toJson])]

def decode : Decoder Key :=
  .variant fun name room content =>
    match name, room, content with
    | "identifier", room, content => (Name.decode room content).map .name
    | "literal", room + 1, .array [l, span] => do
      some (.literal (← Literal.decode room l) (← Span.decode room span))
    | _, _, _ => none

end Key

namespace Expr

def node (kind : Json) (span : Span) : Json := .object [("kind", kind), ("span", span.toJson)]

mutual

def toJsonWith (number : Float → Json) : Expr → Json
  | .literal span l => node (.object [("literal", l.toJson number)]) span
  | .identifier span name => node (.object [("identifier", .string name)]) span
  | .topic span => node (.string "topic_reference") span
  | .unary span op argument =>
    node (.object [("unary", .object [("op", .string op.tag),
      ("argument", argument.toJsonWith number)])]) span
  | .binary span op left right =>
    node (.object [("binary", .object [("op", .string op.tag), ("left", left.toJsonWith number),
      ("right", right.toJsonWith number)])]) span
  | .logical span op left right =>
    node (.object [("logical", .object [("op", .string op.tag), ("left", left.toJsonWith number),
      ("right", right.toJsonWith number)])]) span
  | .coalesce span left right =>
    node (.object [("nullish_coalesce", .object [("left", left.toJsonWith number),
      ("right", right.toJsonWith number)])]) span
  | .conditional span test consequent alternate =>
    node (.object [("conditional", .object [("test", test.toJsonWith number),
      ("consequent", consequent.toJsonWith number),
      ("alternate", optionJson number alternate)])]) span
  | .object span properties =>
    node (.object [("object", .array (propertiesJson number properties))]) span
  | .array span elements => node (.object [("array", .array (elementsJson number elements))]) span
  | .member span target key computed extended =>
    node (.object [("member", .object [("object", target.toJsonWith number),
      ("property", key.toJsonWith number), ("computed", .bool computed),
      ("extension", .bool extended)])]) span
  | .call span callee arguments =>
    node (.object [("call", .object [("callee", callee.toJsonWith number),
      ("arguments", .array (argumentsJson number arguments))])]) span
  | .pipe span head stages =>
    node (.object [("pipe_sequence", .object [("head", head.toJsonWith number),
      ("tail", .array (stagesJson number stages))])]) span
  | .lambda span parameters body =>
    node (.object [("lambda", .object [("params", .array (parameters.map Name.toJson)),
      ("body", body.toJsonWith number)])]) span
  | .letIn span declarations body =>
    node (.object [("let", .object [("declarations",
      .array (declarationsJson number declarations)), ("body", body.toJsonWith number)])]) span

def optionJson (number : Float → Json) : Option Expr → Json
  | none => .null
  | some e => e.toJsonWith number

def propertiesJson (number : Float → Json) : List (Property Expr) → List Json
  | [] => []
  | ⟨key, value, span⟩ :: ps =>
    .object [("key", key.toJson number), ("value", value.toJsonWith number),
      ("span", span.toJson)] :: propertiesJson number ps

def elementsJson (number : Float → Json) : List (Option Expr) → List Json
  | [] => []
  | e :: es => optionJson number e :: elementsJson number es

def argumentsJson (number : Float → Json) : List (Argument Expr) → List Json
  | [] => []
  | .value e :: as => .object [("expr", e.toJsonWith number)] :: argumentsJson number as
  | .placeholder span :: as =>
    .object [("placeholder", span.toJson)] :: argumentsJson number as

def stagesJson (number : Float → Json) : List (Stage Expr) → List Json
  | [] => []
  | ⟨optional, body⟩ :: ss =>
    .object [("optional", .bool optional), ("expr", body.toJsonWith number)] :: stagesJson number ss

def declarationsJson (number : Float → Json) : List (Declaration Expr) → List Json
  | [] => []
  | ⟨name, init, span⟩ :: ds =>
    .object [("id", name.toJson), ("init", init.toJsonWith number), ("span", span.toJson)] ::
      declarationsJson number ds

end

def toJson (e : Expr) : Json := e.toJsonWith numberJson

section Decoding

variable (child : Decoder Expr)

def decodeUnary : Decoder (Span → Expr) :=
  .fields ["op", "argument"] fun room fields =>
    match fields with
    | [some op, some argument] => do
      let op ← UnaryOp.decode room op
      let argument ← child room argument
      some fun span => .unary span op argument
    | _ => none

def decodeBinary : Decoder (Span → Expr) :=
  .fields ["op", "left", "right"] fun room fields =>
    match fields with
    | [some op, some left, some right] => do
      let op ← BinaryOp.decode room op
      let left ← child room left
      let right ← child room right
      some fun span => .binary span op left right
    | _ => none

def decodeLogical : Decoder (Span → Expr) :=
  .fields ["op", "left", "right"] fun room fields =>
    match fields with
    | [some op, some left, some right] => do
      let op ← LogicalOp.decode room op
      let left ← child room left
      let right ← child room right
      some fun span => .logical span op left right
    | _ => none

def decodeCoalesce : Decoder (Span → Expr) :=
  .fields ["left", "right"] fun room fields =>
    match fields with
    | [some left, some right] => do
      let left ← child room left
      let right ← child room right
      some fun span => .coalesce span left right
    | _ => none

def decodeConditional : Decoder (Span → Expr) :=
  .fields ["test", "consequent", "alternate"] fun room fields =>
    match fields with
    | [some test, some consequent, alternate] => do
      let test ← child room test
      let consequent ← child room consequent
      let alternate ← Decoder.nullable child room (alternate.getD .null)
      some fun span => .conditional span test consequent alternate
    | _ => none

def decodeProperty : Decoder (Property Expr) :=
  .fields ["key", "value", "span"] fun room fields =>
    match fields with
    | [some key, some value, some span] => do
      some ⟨← Key.decode room key, ← child room value, ← Span.decode room span⟩
    | _ => none

def decodeArgument : Decoder (Argument Expr) :=
  .variant fun name room content =>
    match name with
    | "expr" => (child room content).map .value
    | "placeholder" => (Span.decode room content).map .placeholder
    | _ => none

def decodeStage : Decoder (Stage Expr) :=
  .fields ["optional", "expr"] fun room fields =>
    match fields with
    | [some optional, some body] => do some ⟨← Decoder.bool room optional, ← child room body⟩
    | _ => none

def decodeDeclaration : Decoder (Declaration Expr) :=
  .fields ["id", "init", "span"] fun room fields =>
    match fields with
    | [some name, some init, some span] => do
      some ⟨← Name.decode room name, ← child room init, ← Span.decode room span⟩
    | _ => none

def decodeMember : Decoder (Span → Expr) :=
  .fields ["object", "property", "computed", "extension"] fun room fields =>
    match fields with
    | [some target, some key, some computed, some extended] => do
      let target ← child room target
      let key ← child room key
      let computed ← Decoder.bool room computed
      let extended ← Decoder.bool room extended
      some fun span => .member span target key computed extended
    | _ => none

def decodeCall : Decoder (Span → Expr) :=
  .fields ["callee", "arguments"] fun room fields =>
    match fields with
    | [some callee, some arguments] => do
      let callee ← child room callee
      let arguments ← Decoder.list (decodeArgument child) room arguments
      some fun span => .call span callee arguments
    | _ => none

def decodePipe : Decoder (Span → Expr) :=
  .fields ["head", "tail"] fun room fields =>
    match fields with
    | [some head, some stages] => do
      let head ← child room head
      let stages ← Decoder.list (decodeStage child) room stages
      some fun span => .pipe span head stages
    | _ => none

def decodeLambda : Decoder (Span → Expr) :=
  .fields ["params", "body"] fun room fields =>
    match fields with
    | [some parameters, some body] => do
      let parameters ← Decoder.list Name.decode room parameters
      let body ← child room body
      some fun span => .lambda span parameters body
    | _ => none

def decodeLet : Decoder (Span → Expr) :=
  .fields ["declarations", "body"] fun room fields =>
    match fields with
    | [some declarations, some body] => do
      let declarations ← Decoder.list (decodeDeclaration child) room declarations
      let body ← child room body
      some fun span => .letIn span declarations body
    | _ => none

def decodeKind : Decoder (Span → Expr) :=
  .variant fun name room content =>
    match name with
    | "literal" => (Literal.decode room content).map fun l span => .literal span l
    | "identifier" => (Decoder.string room content).map fun s span => .identifier span s
    | "topic_reference" => Decoder.unit .topic room content
    | "unary" => decodeUnary child room content
    | "binary" => decodeBinary child room content
    | "logical" => decodeLogical child room content
    | "nullish_coalesce" => decodeCoalesce child room content
    | "conditional" => decodeConditional child room content
    | "object" =>
      (Decoder.list (decodeProperty child) room content).map fun ps span => .object span ps
    | "array" =>
      (Decoder.list (Decoder.nullable child) room content).map fun es span => .array span es
    | "member" => decodeMember child room content
    | "call" => decodeCall child room content
    | "pipe_sequence" => decodePipe child room content
    | "lambda" => decodeLambda child room content
    | "let" => decodeLet child room content
    | _ => none

end Decoding

/-- Reads a tree of at most so many levels; each level takes some of the room. -/
def decode : Nat → Decoder Expr
  | 0, _, _ => none
  | n + 1, room, j =>
    Decoder.fields ["kind", "span"] (fun room fields =>
      match fields with
      | [some kind, some span] => do
        let build ← decodeKind (decode n) room kind
        some (build (← Span.decode room span))
      | _ => none) room j

def ofJson? (j : Json) : Option Expr := decode (Json.nestingLimit + 1) Json.nestingLimit j

def read? (text : String) : Option Expr := (Json.read? text.toList).bind ofJson?

end Expr

end ExprLang
