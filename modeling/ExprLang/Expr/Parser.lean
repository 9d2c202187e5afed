import ExprLang.Expr
import ExprLang.Token.Lexer

/-!
From tokens to trees. Infix operators bind, from loose to tight: pipe stages, `??`, `or`, `and`,
equality, relations, `&`, sums, products; then prefix operators, `^`, and last access and calls.
Conditionals, bindings and lambdas reach as far to the right as they can.
-/
namespace ExprLang

/-- The tokens not read yet, without the end of input, which is never read. -/
structure Cursor where
  rest : List Token
  -- The span of the last token read.
  last : Span
  stop : Span

namespace Cursor

/-- Tokens after the first end of input are never looked at. Without an end of input the text ends
where its last token does. -/
def ofTokens (ts : List Token) : Cursor where
  rest := ts.takeWhile fun t => t.kind ≠ .endOfInput
  last := .point .start
  stop :=
    match ts.find? fun t => t.kind = .endOfInput with
    | some t => t.span
    | none => .point ((ts.getLast?.map (·.span.stop)).getD .start)

def token (c : Cursor) : Token := c.rest.head?.getD ⟨.endOfInput, c.stop⟩

end Cursor

abbrev Parse (α : Type) : Type := StateT Cursor (Except Finding) α

namespace Parse

def peek : Parse Token := fun c => .ok (c.token, c)

def peekKind : Parse TokenKind := fun c => .ok (c.token.kind, c)

def peekSpan : Parse Span := fun c => .ok (c.token.span, c)

def ahead (test : List TokenKind → Bool) : Parse Bool :=
  fun c => .ok (test ((c.rest.drop 1).map (·.kind)), c)

def advance : Parse Unit :=
  fun c => .ok ((), { c with rest := c.rest.drop 1, last := c.token.span })

def fail {α : Type} (p : TokenKind → Problem) : Parse α :=
  fun c => .error ⟨p c.token.kind, c.token.span⟩

def spanFrom (start : Span) : Parse Span := fun c => .ok (⟨start.start, c.last.stop⟩, c)

def eat (kind : TokenKind) : Parse Bool := do
  if (← peekKind) = kind then
    advance
    return true
  else return false

def expect (kind : TokenKind) : Parse Unit := do
  if (← peekKind) = kind then advance else fail (.expectedToken kind)

def expectIdentifier : Parse Name := do
  match ← peek with
  | ⟨.identifier name, span⟩ =>
    advance
    return ⟨name, span⟩
  | _ => fail .expectedIdentifier

/-- A name where keywords count as names. -/
def expectPropertyName : Parse Name := do
  match ← peek with
  | ⟨.identifier name, span⟩ =>
    advance
    return ⟨name, span⟩
  | ⟨.keyword k, span⟩ =>
    advance
    return ⟨k.text, span⟩
  | _ => fail .expectedPropertyName

inductive Progress (α : Type) where
  | more (a : α)
  | done (a : α)

def iterate {α : Type} (step : α → Parse (Progress α)) : Nat → α → Parse α
  | 0, a => return a
  | n + 1, a => do
    match ← step a with
    | .more a => iterate step n a
    | .done a => return a

/-- Repeats a step until it is done. Every step that asks for more reads a token, so the number of
tokens bounds the repetition. -/
def loop {α : Type} (a : α) (step : α → Parse (Progress α)) : Parse α := fun c =>
  iterate step (c.rest.length + 1) a c

end Parse

open Parse

inductive InfixOp where
  | coalesce
  | logical (op : LogicalOp)
  | binary (op : BinaryOp)
deriving DecidableEq, Repr

namespace InfixOp

def node (span : Span) (left right : Expr) : InfixOp → Expr
  | coalesce => .coalesce span left right
  | logical op => .logical span op left right
  | binary op => .binary span op left right

def ofToken? : TokenKind → Option InfixOp
  | .symbol .questionQuestion => some .coalesce
  | .keyword .or => some (.logical .or)
  | .keyword .and => some (.logical .and)
  | .symbol .equalEqual => some (.binary .eq)
  | .symbol .notEqual => some (.binary .notEq)
  | .symbol .less => some (.binary .less)
  | .symbol .lessEqual => some (.binary .lessEq)
  | .symbol .greater => some (.binary .greater)
  | .symbol .greaterEqual => some (.binary .greaterEq)
  | .keyword .in_ => some (.binary .in_)
  | .symbol .ampersand => some (.binary .concat)
  | .symbol .plus => some (.binary .add)
  | .symbol .minus => some (.binary .sub)
  | .symbol .star => some (.binary .mul)
  | .symbol .slash => some (.binary .div)
  | .keyword .mod => some (.binary .mod)
  | _ => none

def level : InfixOp → Nat
  | coalesce => 1
  | logical .or => 2
  | logical .and => 3
  | binary op =>
    match op with
    | .eq | .notEq => 4
    | .less | .lessEq | .greater | .greaterEq | .in_ => 5
    | .concat => 6
    | .add | .sub => 7
    | .mul | .div | .mod => 8
    | .pow => 9

/-- The tightest level whose operators are read from left to right. -/
def tightest : Nat := 8

def atLevel (n : Nat) (kind : TokenKind) : Option InfixOp :=
  (ofToken? kind).filter fun op => op.level == n

end InfixOp

def UnaryOp.ofToken? : TokenKind → Option UnaryOp
  | .symbol .plus => some .plus
  | .symbol .minus => some .minus
  | .keyword .not => some .not
  | .keyword .typeof => some .typeof
  | _ => none

namespace Expr

/-- Operands joined by operators of one level, grouped from the left. -/
def infixChain (level : Nat) (operand : Parse Expr) : Parse Expr := do
  let start ← peekSpan
  let first ← operand
  loop first fun left => do
    match InfixOp.atLevel level (← peekKind) with
    | none => return .done left
    | some op =>
      advance
      let right ← operand
      return .more (op.node (← spanFrom start) left right)

/-- Operators of all levels from the given number of levels below the tightest on. -/
def infixes (operand : Parse Expr) : Nat → Parse Expr
  | 0 => operand
  | n + 1 => infixChain (InfixOp.tightest - n) (infixes operand n)

def pipeline (operand : Parse Expr) : Parse Expr := do
  let start ← peekSpan
  let head ← infixes operand InfixOp.tightest
  let stages ← loop [] fun stages => do
    match ← peekKind with
    | .symbol .pipe =>
      advance
      return .more (stages ++ [⟨false, ← infixes operand InfixOp.tightest⟩])
    | .symbol .pipeQuestion =>
      advance
      return .more (stages ++ [⟨true, ← infixes operand InfixOp.tightest⟩])
    | _ => return .done stages
  if stages.isEmpty then return head else return .pipe (← spanFrom start) head stages

/-- Items with commas between them and perhaps one after the last, up to a closing symbol. -/
def delimited {α : Type} (close : Symbol) (item : Parse α) : Parse (List α) := do
  let items ← loop [] fun items => do
    if (← peekKind) = .symbol close then return .done items
    else
      let x ← item
      if ← eat (.symbol .comma) then return .more (items ++ [x])
      else return .done (items ++ [x])
  expect (.symbol close)
  return items

def argument (expression : Parse Expr) : Parse (Argument Expr) := do
  match ← peek with
  | ⟨.symbol .hash, span⟩ =>
    advance
    return .placeholder span
  | _ => return .value (← expression)

def property (expression : Parse Expr) : Parse (Property Expr) := do
  let token ← peek
  let key ← match token.kind with
    | .string s => do
      advance
      pure (Key.literal (.string s) token.span)
    | .number x => do
      advance
      pure (Key.literal (.number x) token.span)
    | _ => do pure (Key.name (← expectPropertyName))
  expect (.symbol .colon)
  let value ← expression
  return ⟨key, value, ← spanFrom token.span⟩

/-- The elements of an array; a comma without an element before it is a hole. -/
def elements (expression : Parse Expr) : Parse (List (Option Expr)) := do
  let items ← loop [] fun items => do
    if (← peekKind) = .symbol .rightBracket then return .done items
    else if ← eat (.symbol .comma) then return .more (items ++ [none])
    else
      let x ← expression
      if ← eat (.symbol .comma) then return .more (items ++ [some x])
      else return .done (items ++ [some x])
  expect (.symbol .rightBracket)
  return items

def closesParameters : List TokenKind → Bool
  | .symbol .rightParen :: .symbol .arrow :: _ => true
  | _ => false

def namesParameters : List TokenKind → Bool
  | .identifier _ :: .symbol .comma :: rest => namesParameters rest
  | .identifier _ :: rest => closesParameters rest
  | _ => false

/-- Whether the tokens after an opening parenthesis are those of a lambda. -/
def isParameters (kinds : List TokenKind) : Bool := closesParameters kinds || namesParameters kinds

def startsWith (kind : TokenKind) (kinds : List TokenKind) : Bool := kinds.head? = some kind

def parameters : Parse (List Name) := do
  if ← eat (.symbol .leftParen) then delimited .rightParen expectIdentifier
  else return [← expectIdentifier]

def lambdaFrom (expression : Parse Expr) : Parse Expr := do
  let start ← peekSpan
  let parameters ← parameters
  expect (.symbol .arrow)
  let body ← expression
  return .lambda (← spanFrom start) parameters body

def conditionalFrom (expression : Parse Expr) : Parse Expr := do
  let start ← peekSpan
  advance
  let test ← expression
  expect (.keyword .then_)
  let consequent ← expression
  if ← eat (.keyword .else_) then
    let alternate ← expression
    return .conditional (← spanFrom start) test consequent (some alternate)
  else return .conditional (← spanFrom start) test consequent none

def declaration (expression : Parse Expr) : Parse (Declaration Expr) := do
  let name ← expectIdentifier
  expect (.symbol .equal)
  let init ← expression
  expect (.symbol .comma)
  return ⟨name, init, name.span.merge init.span⟩

/-- Declarations go on while a name and an equals sign follow. -/
def letFrom (expression : Parse Expr) : Parse Expr := do
  let start ← peekSpan
  advance
  let declarations ← loop [] fun declarations => do
    let d ← declaration expression
    match ← peekKind with
    | .identifier _ =>
      if ← ahead (startsWith (.symbol .equal)) then return .more (declarations ++ [d])
      else return .done (declarations ++ [d])
    | _ => return .done (declarations ++ [d])
  let body ← expression
  return .letIn (← spanFrom start) declarations body

def primary (expression : Parse Expr) : Parse Expr := do
  let ⟨kind, span⟩ ← peek
  match kind with
  | .number x =>
    advance
    return .literal span (.number x)
  | .string s =>
    advance
    return .literal span (.string s)
  | .keyword .true =>
    advance
    return .literal span (.boolean true)
  | .keyword .false =>
    advance
    return .literal span (.boolean false)
  | .keyword .null =>
    advance
    return .literal span .null
  | .symbol .percent =>
    advance
    return .topic span
  | .identifier name =>
    if ← ahead (startsWith (.symbol .arrow)) then lambdaFrom expression
    else
      advance
      return .identifier span name
  | .symbol .leftParen =>
    if ← ahead isParameters then lambdaFrom expression
    else
      advance
      let inner ← expression
      expect (.symbol .rightParen)
      return inner
  | .symbol .leftBracket =>
    advance
    let items ← elements expression
    return .array (← spanFrom span) items
  | .symbol .leftBrace =>
    advance
    let properties ← delimited .rightBrace (property expression)
    return .object (← spanFrom span) properties
  | .keyword .if_ => conditionalFrom expression
  | .keyword .let_ => letFrom expression
  | .symbol .hash => fail fun _ => .strayPlaceholder
  | _ => fail .expectedExpression

/-- The access or the call that follows an operand, if there is one. -/
def access (expression : Parse Expr) (start : Span) (e : Expr) : Parse (Progress Expr) := do
  match ← peekKind with
  | .symbol .dot =>
    advance
    let name ← expectPropertyName
    return .more (.member (← spanFrom start) e (.identifier name.span name.text) false false)
  | .symbol .colonColon =>
    advance
    let name ← expectPropertyName
    return .more (.member (← spanFrom start) e (.identifier name.span name.text) false true)
  | .symbol .leftBracket =>
    advance
    let key ← expression
    expect (.symbol .rightBracket)
    return .more (.member (← spanFrom start) e key true false)
  | .symbol .leftParen =>
    advance
    let arguments ← delimited .rightParen (argument expression)
    return .more (.call (← spanFrom start) e arguments)
  | _ => return .done e

def postfixed (expression : Parse Expr) : Parse Expr := do
  let start ← peekSpan
  let first ← primary expression
  loop first (access expression start)

def prefixed (expression nested : Parse Expr) : Parse Expr := do
  let start ← peekSpan
  match UnaryOp.ofToken? (← peekKind) with
  | some op =>
    advance
    let argument ← nested
    return .unary (← spanFrom start) op argument
  | none =>
    let base ← postfixed expression
    if ← eat (.symbol .caret) then
      let exponent ← nested
      return .binary (← spanFrom start) .pow base exponent
    else return base

mutual

/-- An expression within which so many further levels may be nested. -/
def parser : Nat → Cursor → Except Finding (Expr × Cursor)
  | 0, c => fail (fun _ => .nestingTooDeep) c
  | n + 1, c => pipeline (prefixed (parser n) (operandParser n)) c

def operandParser : Nat → Cursor → Except Finding (Expr × Cursor)
  | 0, c => fail (fun _ => .nestingTooDeep) c
  | n + 1, c => prefixed (parser n) (operandParser n) c

end

structure Parsed where
  tree : Option Expr
  findings : List Finding

/-- All tokens must be used, and the tree must not be too high: chains of operators and accesses
grow it without nesting. -/
def ofTokens (ts : List Token) : Parsed :=
  match parser maxNesting (.ofTokens ts) with
  | .error f => ⟨none, [f]⟩
  | .ok (e, c) =>
    let trailing := if c.rest.isEmpty then [] else [⟨.trailingToken c.token.kind, c.token.span⟩]
    match e.deeperThan? maxHeight with
    | some node => ⟨none, trailing ++ [⟨.treeTooHigh, node.span⟩]⟩
    | none => ⟨some e, trailing⟩

/-- The tree of a text, or its errors. Errors in the tokens come alone. -/
def parse (text : String) : Except ErrorLog Expr :=
  let lexed := lex text
  if lexed.findings.isEmpty then
    match ofTokens lexed.tokens with
    | ⟨some e, []⟩ => .ok e
    | ⟨_, findings⟩ => .error (.ofFindings text findings)
  else .error (.ofFindings text lexed.findings)

end Expr

end ExprLang
