import ExprLang.SpanTable
import ExprLang.Text.Quoted

/-!
The listing of a tree: the text of its compiled form in fragments, each belonging to the node that
wrote it. A node writes its own fragments around those of its children.
-/
namespace ExprLang

structure Fragment where
  text : List Char
  span : Span
deriving DecidableEq, Repr

namespace Fragment

def ofString (s : String) (span : Span) : Fragment := ⟨s.toList, span⟩

def size : List Fragment → Nat
  | [] => 0
  | f :: fs => f.text.length + size fs

def join (fs : List Fragment) : List Char := fs.flatMap (·.text)

def table (fs : List Fragment) : SpanTable := ⟨fs.map fun f => ⟨f.text.length, f.span⟩⟩

end Fragment

namespace Literal

def listing : Literal → List Char
  | .number x => if Binary64.isFinite x then (NumberFormat.value.write x).toList else "null".toList
  | .string s => Text.quote s.toList
  | .boolean b => (if b then "true" else "false").toList
  | .null => "null".toList

def keyText : Literal → String
  | .number x => NumberFormat.value.write x
  | .string s => s
  | .boolean b => if b then "true" else "false"
  | .null => "null"

end Literal

def Key.text : Key → String
  | .name id => id.text
  | .literal l _ => l.keyText

def topicName : String := "%"

namespace Listing

def quoted (s : String) : List Char := Text.quote s.toList

def lookup (name : String) : List Char := "get(scope,".toList ++ quoted name ++ [')']

def unaryHead (op : UnaryOp) : List Char := ("uop[\"" ++ op.text ++ "\"](").toList

def binaryHead (op : BinaryOp) : List Char := ("bop[\"" ++ op.text ++ "\"](").toList

def logicalHead (op : LogicalOp) : List Char := ("lop[\"" ++ op.text ++ "\"](()=>(").toList

def logicalMiddle : List Char := "),()=>(".toList

def conditionalHead : List Char := "(bool(".toList

def conditionalThen : List Char := ")?".toList

def memberHead : List Char := "prop(".toList

def callHead : List Char := "call(".toList

def callOpen : List Char := ",[".toList

def callClose : List Char := "])".toList

def numbered (letter : Char) (i : Nat) : List Char := letter :: (toString i).toList

def placeholders (i : Nat) : List (Argument Expr) → List Nat
  | [] => []
  | .value _ :: as => placeholders (i + 1) as
  | .placeholder _ :: as => i :: placeholders (i + 1) as

def commaJoin (parts : List (List Char)) : List Char := [','].intercalate parts

def curryHead (arguments : List (Argument Expr)) : List Char :=
  "(scope=>(".toList ++ commaJoin ((placeholders 0 arguments).map (numbered 'a')) ++
    ")=>".toList

def curryClose : List Char := ")(scope)".toList

def pipeHead : List Char := "pipe(".toList

def stageHead (optional : Bool) : List Char :=
  "\x7bopt:".toList ++ (if optional then "true" else "false").toList ++
    ",next:(scope=>topic=>\x7bscope=[[".toList ++ quoted topicName ++
    "],[topic],scope];return ".toList

def stageClose : List Char := "\x7d)(scope)\x7d".toList

def thunkHead : List Char := "(()=>".toList

def lambdaHead (count : Nat) : List Char :=
  let positions := commaJoin ((List.range count).map (numbered 'p'))
  "((scope,params)=>function(".toList ++ positions ++ ")\x7bscope=[params,[".toList ++ positions ++
    "],scope];return ".toList

def lambdaClose (parameters : List Name) : List Char :=
  "\x7d)(scope,[".toList ++ commaJoin (parameters.map fun p => quoted p.text) ++ "])".toList

def letHead : List Char :=
  "(scope=>\x7bvar _varNames=[];var _varValues=[];scope=[_varNames,_varValues,scope];".toList

def valueHead : List Char := "_varValues.push(".toList

def statementClose : List Char := ");".toList

def nameHead : List Char := "_varNames.push(".toList

def letReturn : List Char := "return ".toList

def letClose : List Char := "\x7d)(scope)".toList

end Listing

open Listing

namespace Expr

mutual

def layout : Expr → List Fragment
  | .literal span l => [⟨l.listing, span⟩]
  | .identifier span name => [⟨lookup name, span⟩]
  | .topic span => [⟨lookup topicName, span⟩]
  | .unary span op argument => ⟨unaryHead op, span⟩ :: argument.layout ++ [⟨[')'], span⟩]
  | .binary span op left right =>
    ⟨binaryHead op, span⟩ :: left.layout ++ ⟨[','], span⟩ :: right.layout ++ [⟨[')'], span⟩]
  | .logical span op left right =>
    ⟨logicalHead op, span⟩ :: left.layout ++ ⟨logicalMiddle, span⟩ :: right.layout ++
      [⟨[')', ')'], span⟩]
  | .coalesce span left right =>
    ⟨['('], span⟩ :: left.layout ++ ⟨['?', '?'], span⟩ :: right.layout ++ [⟨[')'], span⟩]
  | .conditional span test consequent alternate =>
    ⟨conditionalHead, span⟩ :: test.layout ++ ⟨conditionalThen, span⟩ :: consequent.layout ++
      ⟨[':'], span⟩ :: alternateLayout span alternate ++ [⟨[')'], span⟩]
  | .object span properties =>
    ⟨['\x7b'], span⟩ :: propertiesLayout span properties ++ [⟨['\x7d'], span⟩]
  | .array span elements => ⟨['['], span⟩ :: elementsLayout span elements ++ [⟨[']'], span⟩]
  | .member span target key computed _ =>
    ⟨memberHead, span⟩ :: target.layout ++ ⟨[','], span⟩ ::
      (if computed then key.layout else key.plainKeyLayout) ++ [⟨[')'], span⟩]
  | .call span callee arguments =>
    if arguments.isEmpty then
      ⟨callHead, span⟩ :: callee.layout ++ [.ofString ",null)" span]
    else
      let inner := ⟨callHead, span⟩ :: callee.layout ++ ⟨callOpen, span⟩ ::
        argumentsLayout span 0 arguments ++ [⟨callClose, span⟩]
      if arguments.any (·.isPlaceholder) then
        ⟨curryHead arguments, span⟩ :: inner ++ [⟨curryClose, span⟩]
      else inner
  | .pipe span head stages =>
    ⟨pipeHead, span⟩ :: head.layout ++ ⟨callOpen, span⟩ :: stagesLayout stages ++
      [⟨callClose, span⟩]
  | .lambda span parameters body =>
    if parameters.isEmpty then ⟨thunkHead, span⟩ :: body.layout ++ [⟨[')'], span⟩]
    else
      ⟨lambdaHead parameters.length, span⟩ :: body.layout ++ [⟨lambdaClose parameters, span⟩]
  | .letIn span declarations body =>
    ⟨letHead, span⟩ :: declarationsLayout declarations ++ ⟨letReturn, span⟩ :: body.layout ++
      [⟨letClose, span⟩]

def plainKeyLayout : Expr → List Fragment
  | .identifier span name => [⟨quoted name, span⟩]
  | _ => []

def alternateLayout (span : Span) : Option Expr → List Fragment
  | none => [.ofString "undefined" span]
  | some e => e.layout

def propertiesLayout (span : Span) : List (Property Expr) → List Fragment
  | [] => []
  | ⟨key, value, place⟩ :: ps =>
    ⟨quoted key.text, place⟩ :: ⟨[':'], place⟩ :: value.layout ++
      (if ps.isEmpty then [] else [⟨[','], span⟩]) ++ propertiesLayout span ps

def elementLayout : Option Expr → List Fragment
  | none => []
  | some e => e.layout

def elementsLayout (span : Span) : List (Option Expr) → List Fragment
  | [] => []
  | e :: es =>
    elementLayout e ++ (if es.isEmpty then [] else [⟨[','], span⟩]) ++ elementsLayout span es

def argumentLayout (i : Nat) : Argument Expr → List Fragment
  | .value e => e.layout
  | .placeholder place => [⟨numbered 'a' i, place⟩]

def argumentsLayout (span : Span) (i : Nat) : List (Argument Expr) → List Fragment
  | [] => []
  | a :: as =>
    argumentLayout i a ++ (if as.isEmpty then [] else [⟨[','], span⟩]) ++
      argumentsLayout span (i + 1) as

def stagesLayout : List (Stage Expr) → List Fragment
  | [] => []
  | ⟨optional, body⟩ :: ss =>
    ⟨stageHead optional, body.span⟩ :: body.layout ++ ⟨stageClose, body.span⟩ ::
      (if ss.isEmpty then [] else [⟨[','], body.span⟩]) ++ stagesLayout ss

def declarationsLayout : List (Declaration Expr) → List Fragment
  | [] => []
  | ⟨name, init, span⟩ :: ds =>
    ⟨valueHead, span⟩ :: init.layout ++ [⟨statementClose, span⟩, ⟨nameHead, span⟩,
      ⟨quoted name.text, name.span⟩, ⟨statementClose, span⟩] ++ declarationsLayout ds

end

def width (e : Expr) : Nat := Fragment.size e.layout

end Expr

end ExprLang
