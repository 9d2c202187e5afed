import ExprLang.Expr.Parser

/-!
The parser on its way over the tokens. It has one cursor, counts how deep it is nested and collects
the errors; a function that finds its construct malformed gives nothing, and so do those that
called it. The functions are those of the parser of trees, one for one.
-/
namespace ExprLang

/-- How a function of the parser returned. -/
structure Return where
  hasResult : Bool
  depthBefore : Nat
  depthAfter : Nat
  errorsBefore : Nat
  errorsAfter : Nat

structure Walker where
  tokens : List Token
  position : Nat
  depth : Nat
  errors : List Finding
  -- The way so far, the last first: where the cursor was at which depth, and the returns. Nothing
  -- is decided by it.
  visited : List (Nat × Nat)
  returns : List Return

namespace Walker

/-- Before the first of the tokens, to which an end of input is added if they do not end with
one. -/
def ofTokens (ts : List Token) : Walker where
  tokens :=
    match ts.getLast? with
    | some t => if t.kind = .endOfInput then ts else ts ++ [⟨.endOfInput, .point t.span.stop⟩]
    | none => [⟨.endOfInput, .point .start⟩]
  position := 0
  depth := 0
  errors := []
  visited := [(0, 0)]
  returns := []

def token? (w : Walker) : Option Token := w.tokens[min w.position (w.tokens.length - 1)]?

/-- The kind of the token so many places further on; behind the last one the input ends. -/
def lookAhead (w : Walker) (n : Nat) : TokenKind :=
  (w.tokens[w.position + n]?.map (·.kind)).getD .endOfInput

def previous? (w : Walker) : Option Token :=
  match w.position with
  | 0 => w.token?
  | i + 1 => w.tokens[i]?.or w.token?

def visit (w : Walker) (position depth : Nat) : Walker :=
  { w with position, depth, visited := (position, depth) :: w.visited }

def report (w : Walker) (f : Finding) : Walker := { w with errors := w.errors ++ [f] }

def logReturn (w : Walker) (r : Return) : Walker := { w with returns := r :: w.returns }

end Walker

/-- A function of the parser. What it gives is in the inner option; the outer one is none if it
does not return. -/
abbrev Walk (α : Type) : Type := OptionT (StateT Walker Option) α

namespace Walk

variable {α : Type}

def of (f : Walker → Option (Option α × Walker)) : Walk α := OptionT.mk f

def from? (w : Walker) (p : Walk α) : Option (Option α × Walker) := p.run.run w

def look (f : Walker → Option α) : Walk α := of fun w => (f w).map fun a => (some a, w)

def peek : Walk Token := look Walker.token?

def peekKind : Walk TokenKind := look fun w => w.token?.map (·.kind)

def peekSpan : Walk Span := look fun w => w.token?.map (·.span)

def lookAhead (n : Nat) : Walk TokenKind := look fun w => some (w.lookAhead n)

def spanFrom (start : Span) : Walk Span :=
  look fun w => w.previous?.map fun t => ⟨start.start, t.span.stop⟩

def advance : Walk Unit := of fun w =>
  some (some (), if w.position < w.tokens.length then w.visit (w.position + 1) w.depth else w)

def fail (p : TokenKind → Problem) : Walk α := of fun w =>
  w.token?.map fun t => (none, w.report ⟨p t.kind, t.span⟩)

/-- Keeps how the function returns. -/
def function (p : Walk α) : Walk α := of fun w =>
  (p.from? w).map fun (result, w') =>
    (result, w'.logReturn ⟨result.isSome, w.depth, w'.depth, w.errors.length, w'.errors.length⟩)

/-- One level deeper, but not too deep. -/
def nested (p : Walk α) : Walk α := function <| of fun w =>
  if maxNesting ≤ w.depth then (fail fun _ => .nestingTooDeep).from? w
  else
    (p.from? (w.visit w.position (w.depth + 1))).map fun (result, w') =>
      (result, w'.visit w'.position (w'.depth - 1))

def eat (kind : TokenKind) : Walk Bool := do
  if (← peekKind) = kind then
    advance
    return true
  else return false

def expect (kind : TokenKind) : Walk Unit := function do
  if (← peekKind) = kind then advance else fail (.expectedToken kind)

def expectIdentifier : Walk Name := function do
  match ← peek with
  | ⟨.identifier name, span⟩ =>
    advance
    return ⟨name, span⟩
  | _ => fail .expectedIdentifier

def expectPropertyName : Walk Name := function do
  match ← peek with
  | ⟨.identifier name, span⟩ =>
    advance
    return ⟨name, span⟩
  | ⟨.keyword k, span⟩ =>
    advance
    return ⟨k.text, span⟩
  | _ => fail .expectedPropertyName

def iterate (step : α → Walk (Parse.Progress α)) : Nat → α → Walk α
  | 0, _ => of fun _ => none
  | n + 1, a => do
    match ← step a with
    | .more b => iterate step n b
    | .done b => return b

/-- Repeats a step until it is done. More rounds than there are tokens are not followed. -/
def loop (a : α) (step : α → Walk (Parse.Progress α)) : Walk α :=
  of fun w => (iterate step (w.tokens.length + 1) a).from? w

def infixChain (level : Nat) (operand : Walk Expr) : Walk Expr := function do
  let start ← peekSpan
  let first ← operand
  loop first fun left => do
    match InfixOp.atLevel level (← peekKind) with
    | none => return .done left
    | some op =>
      advance
      let right ← operand
      return .more (op.node (← spanFrom start) left right)

def infixes (operand : Walk Expr) : Nat → Walk Expr
  | 0 => operand
  | n + 1 => infixChain (InfixOp.tightest - n) (infixes operand n)

def pipeline (operand : Walk Expr) : Walk Expr := function do
  let start ← peekSpan
  let head ← infixes operand InfixOp.tightest
  let stages ← loop [] fun stages => do
    match ← peekKind with
    | .symbol .pipe =>
      advance
      return .more (stages ++ [⟨false, ← infixes operand InfixOp.tightest⟩])
    | .symbol .pipeQuestion =>
      advance
      return .more (stages ++ [⟨true, ← infixes operand InfixOp.tightest⟩])
    | _ => return .done stages
  if stages.isEmpty then return head else return .pipe (← spanFrom start) head stages

def delimited (close : Symbol) (item : Walk α) : Walk (List α) := do
  let items ← loop [] fun items => do
    if (← peekKind) = .symbol close then return .done items
    else
      let x ← item
      if ← eat (.symbol .comma) then return .more (items ++ [x])
      else return .done (items ++ [x])
  expect (.symbol close)
  return items

def argument (expression : Walk Expr) : Walk (Argument Expr) := do
  match ← peek with
  | ⟨.symbol .hash, span⟩ =>
    advance
    return .placeholder span
  | _ => return .value (← expression)

def arguments (expression : Walk Expr) : Walk (List (Argument Expr)) :=
  function (delimited .rightParen (argument expression))

def property (expression : Walk Expr) : Walk (Property Expr) := do
  let token ← peek
  let key ← match token.kind with
    | .string s => do
      advance
      pure (Key.literal (.string s) token.span)
    | .number x => do
      advance
      pure (Key.literal (.number x) token.span)
    | _ => do pure (Key.name (← expectPropertyName))
  expect (.symbol .colon)
  let value ← expression
  return ⟨key, value, ← spanFrom token.span⟩

def object (expression : Walk Expr) : Walk Expr := function do
  let start ← peekSpan
  advance
  let properties ← delimited .rightBrace (property expression)
  return .object (← spanFrom start) properties

def elements (expression : Walk Expr) : Walk (List (Option Expr)) := do
  let items ← loop [] fun items => do
    if (← peekKind) = .symbol .rightBracket then return .done items
    else if ← eat (.symbol .comma) then return .more (items ++ [none])
    else
      let x ← expression
      if ← eat (.symbol .comma) then return .more (items ++ [some x])
      else return .done (items ++ [some x])
  expect (.symbol .rightBracket)
  return items

def array (expression : Walk Expr) : Walk Expr := function do
  let start ← peekSpan
  advance
  let items ← elements expression
  return .array (← spanFrom start) items

end Walk

namespace Walker

theorem lt_of_lookAhead {w : Walker} {n : Nat} (h : w.lookAhead n ≠ .endOfInput) :
    w.position + n < w.tokens.length := by
  refine Nat.not_le.1 fun hle => h ?_
  rw [lookAhead, List.getElem?_eq_none hle]
  rfl

/-- Whether names with commas between them, a closing parenthesis and an arrow stand from so many
places further on. -/
def namesParameters (w : Walker) (n : Nat) : Bool :=
  match hname : w.lookAhead n with
  | .identifier _ =>
    match w.lookAhead (n + 1) with
    | .symbol .comma =>
      have : w.position + n < w.tokens.length := lt_of_lookAhead (hname ▸ nofun)
      w.namesParameters (n + 2)
    | .symbol .rightParen => w.lookAhead (n + 2) = .symbol .arrow
    | _ => false
  | _ => false
termination_by w.tokens.length - (w.position + n)

def isParameters (w : Walker) : Bool :=
  if w.lookAhead 1 = .symbol .rightParen then w.lookAhead 2 = .symbol .arrow
  else w.namesParameters 1

end Walker

namespace Walk

def parameters : Walk (List Name) := do
  if ← eat (.symbol .leftParen) then delimited .rightParen expectIdentifier
  else return [← expectIdentifier]

def lambda (expression : Walk Expr) : Walk Expr := function do
  let start ← peekSpan
  let parameters ← parameters
  expect (.symbol .arrow)
  let body ← expression
  return .lambda (← spanFrom start) parameters body

def conditional (expression : Walk Expr) : Walk Expr := function do
  let start ← peekSpan
  advance
  let test ← expression
  expect (.keyword .then_)
  let consequent ← expression
  if ← eat (.keyword .else_) then
    let alternate ← expression
    return .conditional (← spanFrom start) test consequent (some alternate)
  else return .conditional (← spanFrom start) test consequent none

def declaration (expression : Walk Expr) : Walk (Declaration Expr) := do
  let name ← expectIdentifier
  expect (.symbol .equal)
  let init ← expression
  expect (.symbol .comma)
  return ⟨name, init, name.span.merge init.span⟩

def letIn (expression : Walk Expr) : Walk Expr := function do
  let start ← peekSpan
  advance
  let declarations ← loop [] fun declarations => do
    let d ← declaration expression
    match ← peekKind with
    | .identifier _ =>
      if (← lookAhead 1) = .symbol .equal then return .more (declarations ++ [d])
      else return .done (declarations ++ [d])
    | _ => return .done (declarations ++ [d])
  let body ← expression
  return .letIn (← spanFrom start) declarations body

def primary (expression : Walk Expr) : Walk Expr := function do
  let ⟨kind, span⟩ ← peek
  match kind with
  | .number x =>
    advance
    return .literal span (.number x)
  | .string s =>
    advance
    return .literal span (.string s)
  | .keyword .true =>
    advance
    return .literal span (.boolean true)
  | .keyword .false =>
    advance
    return .literal span (.boolean false)
  | .keyword .null =>
    advance
    return .literal span .null
  | .symbol .percent =>
    advance
    return .topic span
  | .identifier name =>
    if (← lookAhead 1) = .symbol .arrow then lambda expression
    else
      advance
      return .identifier span name
  | .symbol .leftParen =>
    if ← look fun w => some w.isParameters then lambda expression
    else
      advance
      let inner ← expression
      expect (.symbol .rightParen)
      return inner
  | .symbol .leftBracket => array expression
  | .symbol .leftBrace => object expression
  | .keyword .if_ => conditional expression
  | .keyword .let_ => letIn expression
  | .symbol .hash => fail fun _ => .strayPlaceholder
  | _ => fail .expectedExpression

def access (expression : Walk Expr) (start : Span) (e : Expr) : Walk (Parse.Progress Expr) := do
  match ← peekKind with
  | .symbol .dot =>
    advance
    let name ← expectPropertyName
    return .more (.member (← spanFrom start) e (.identifier name.span name.text) false false)
  | .symbol .colonColon =>
    advance
    let name ← expectPropertyName
    return .more (.member (← spanFrom start) e (.identifier name.span name.text) false true)
  | .symbol .leftBracket =>
    advance
    let key ← expression
    expect (.symbol .rightBracket)
    return .more (.member (← spanFrom start) e key true false)
  | .symbol .leftParen =>
    advance
    let arguments ← arguments expression
    return .more (.call (← spanFrom start) e arguments)
  | _ => return .done e

def postfixed (expression : Walk Expr) : Walk Expr := function do
  let start ← peekSpan
  let first ← primary expression
  loop first (access expression start)

def power (expression operand : Walk Expr) : Walk Expr := function do
  let start ← peekSpan
  let base ← postfixed expression
  if ← eat (.symbol .caret) then
    let exponent ← operand
    return .binary (← spanFrom start) .pow base exponent
  else return base

def prefixed (expression operand : Walk Expr) : Walk Expr := function do
  let start ← peekSpan
  match UnaryOp.ofToken? (← peekKind) with
  | some op =>
    advance
    let argument ← operand
    return .unary (← spanFrom start) op argument
  | none => power expression operand

mutual

/-- An expression, followed through so many calls of the parser within one another. -/
def expression : Nat → Walk Expr
  | 0 => of fun _ => none
  | calls + 1 => nested (pipeline (prefixed (expression calls) (operand calls)))

def operand : Nat → Walk Expr
  | 0 => of fun _ => none
  | calls + 1 => nested (prefixed (expression calls) (operand calls))

end

end Walk

namespace Walker

/-- Behind the expression the tokens must end, and the tree must not be too high. -/
def finish (w : Walker) (tree : Option Expr) : Option (Expr.Parsed × Walker) := do
  let token ← w.token?
  let w :=
    if tree.isSome && token.kind ≠ .endOfInput && w.errors.length < ErrorLog.limit then
      w.report ⟨.trailingToken token.kind, token.span⟩
    else w
  match tree.bind fun e => e.deeperThan? maxHeight with
  | some node =>
    let w := w.report ⟨.treeTooHigh, node.span⟩
    some (⟨none, w.errors⟩, w)
  | none => some (⟨tree, w.errors⟩, w)

def walk (calls : Nat) (ts : List Token) : Option (Expr.Parsed × Walker) := do
  let (tree, w) ← (Walk.expression calls).from? (.ofTokens ts)
  w.finish tree

end Walker

end ExprLang
