import ExprLang.Token

/-!
Expression trees. Every node carries the span of its text; parts keep their order in the text.
-/
namespace ExprLang

structure Name where
  text : String
  span : Span
deriving DecidableEq

inductive Literal where
  | number (x : Float)
  | string (s : String)
  | boolean (b : Bool)
  | null
deriving BEq

inductive UnaryOp where
  | plus | minus | not | typeof
deriving DecidableEq, Repr

namespace UnaryOp

def all : List UnaryOp := [.plus, .minus, .not, .typeof]

def text : UnaryOp → String
  | plus => "+"
  | minus => "-"
  | not => "not"
  | typeof => "typeof"

end UnaryOp

inductive BinaryOp where
  | add | sub | mul | div | mod | pow
  | concat
  | eq | notEq | less | lessEq | greater | greaterEq
  | in_
deriving DecidableEq, Repr

namespace BinaryOp

def all : List BinaryOp :=
  [.add, .sub, .mul, .div, .mod, .pow, .concat, .eq, .notEq, .less, .lessEq, .greater, .greaterEq,
    .in_]

def text : BinaryOp → String
  | add => "+"
  | sub => "-"
  | mul => "*"
  | div => "/"
  | mod => "mod"
  | pow => "^"
  | concat => "&"
  | eq => "=="
  | notEq => "!="
  | less => "<"
  | lessEq => "<="
  | greater => ">"
  | greaterEq => ">="
  | in_ => "in"

end BinaryOp

inductive LogicalOp where
  | and | or
deriving DecidableEq, Repr

namespace LogicalOp

def text : LogicalOp → String
  | and => "and"
  | or => "or"

end LogicalOp

inductive Key where
  | name (id : Name)
  | literal (l : Literal) (span : Span)
deriving BEq

namespace Key

def span : Key → Span
  | name id => id.span
  | literal _ span => span

end Key

structure Property (ε : Type) where
  key : Key
  value : ε
  span : Span
deriving BEq

inductive Argument (ε : Type) where
  | value (e : ε)
  -- Filled in when the function made by the call is called.
  | placeholder (span : Span)
deriving BEq

namespace Argument

def value? {ε : Type} : Argument ε → Option ε
  | value e => some e
  | placeholder _ => none

def isPlaceholder {ε : Type} : Argument ε → Bool
  | value _ => false
  | placeholder _ => true

end Argument

structure Stage (ε : Type) where
  -- The pipe stops before this stage when its input is null or undefined.
  optional : Bool
  body : ε
deriving BEq

structure Declaration (ε : Type) where
  name : Name
  init : ε
  span : Span
deriving BEq

inductive Expr where
  | literal (span : Span) (value : Literal)
  | identifier (span : Span) (name : String)
  -- The input of the pipe stage.
  | topic (span : Span)
  | unary (span : Span) (op : UnaryOp) (argument : Expr)
  | binary (span : Span) (op : BinaryOp) (left right : Expr)
  | logical (span : Span) (op : LogicalOp) (left right : Expr)
  -- The right side stands in for a null or undefined left side.
  | coalesce (span : Span) (left right : Expr)
  | conditional (span : Span) (test consequent : Expr) (alternate : Option Expr)
  | object (span : Span) (properties : List (Property Expr))
  -- A missing element is a hole.
  | array (span : Span) (elements : List (Option Expr))
  -- The property of an access that is not computed is an identifier. The two spellings of such an
  -- access mean the same.
  | member (span : Span) (object property : Expr) (computed extended : Bool)
  | call (span : Span) (callee : Expr) (arguments : List (Argument Expr))
  | pipe (span : Span) (head : Expr) (stages : List (Stage Expr))
  | lambda (span : Span) (parameters : List Name) (body : Expr)
  | letIn (span : Span) (declarations : List (Declaration Expr)) (body : Expr)
deriving BEq

namespace Expr

def span : Expr → Span
  | literal span _ | identifier span _ | topic span | unary span .. | binary span ..
  | logical span .. | coalesce span .. | conditional span .. | object span _ | array span _
  | member span .. | call span .. | pipe span .. | lambda span .. | letIn span .. => span

def children : Expr → List Expr
  | literal .. | identifier .. | topic _ => []
  | unary _ _ argument => [argument]
  | binary _ _ left right | logical _ _ left right | coalesce _ left right => [left, right]
  | conditional _ test consequent alternate => test :: consequent :: alternate.toList
  | object _ properties => properties.map (·.value)
  | array _ elements => elements.filterMap id
  | member _ target key _ _ => [target, key]
  | call _ callee arguments => callee :: arguments.filterMap (·.value?)
  | pipe _ head stages => head :: stages.map (·.body)
  | lambda _ _ body => [body]
  | letIn _ declarations body => declarations.map (·.init) ++ [body]

/-- The first node, parents before children and children in order, that lies more than so many
nodes below the root, the root itself lying one node below. -/
def deeperThan? : Nat → Expr → Option Expr
  | 0, e => some e
  | limit + 1, e => e.children.findSome? (deeperThan? limit)

end Expr

end ExprLang
