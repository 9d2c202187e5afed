import ExprLang.Listing

/-!
Writing trees in the concrete syntax: first as tokens, compound parts in parentheses, then as text
with a blank after each token.
-/
namespace ExprLang

namespace TokenKind

def written : TokenKind → List Char
  | number x => (NumberFormat.value.write x).toList
  | string s => Text.quote s.toList
  | identifier name => name.toList
  | keyword k => k.text.toList
  | symbol s => s.text.toList
  | endOfInput => []

def writeAll (ks : List TokenKind) : List Char := ks.flatMap fun k => k.written ++ [' ']

def parenthesized (wrapped : Bool) (ks : List TokenKind) : List TokenKind :=
  if wrapped then .symbol .leftParen :: ks ++ [.symbol .rightParen] else ks

/-- Items with commas between them and perhaps one after the last. -/
def listed (trailing : Bool) : List (List TokenKind) → List TokenKind
  | [] => []
  | item :: items =>
    item ++ if items.isEmpty && !trailing then [] else .symbol .comma :: listed trailing items

/-- The token of a name that may be a keyword. -/
def ofName (name : String) : TokenKind :=
  match Keyword.ofText? name with
  | some k => .keyword k
  | none => .identifier name

end TokenKind

def Literal.token : Literal → TokenKind
  | .number x => .number x
  | .string s => .string s
  | .boolean b => .keyword (if b then .true else .false)
  | .null => .keyword .null

def Key.token : Key → TokenKind
  | .name id => .ofName id.text
  | .literal l _ => l.token

def UnaryOp.token : UnaryOp → TokenKind
  | .plus => .symbol .plus
  | .minus => .symbol .minus
  | .not => .keyword .not
  | .typeof => .keyword .typeof

def BinaryOp.token : BinaryOp → TokenKind
  | .add => .symbol .plus
  | .sub => .symbol .minus
  | .mul => .symbol .star
  | .div => .symbol .slash
  | .mod => .keyword .mod
  | .pow => .symbol .caret
  | .concat => .symbol .ampersand
  | .eq => .symbol .equalEqual
  | .notEq => .symbol .notEqual
  | .less => .symbol .less
  | .lessEq => .symbol .lessEqual
  | .greater => .symbol .greater
  | .greaterEq => .symbol .greaterEqual
  | .in_ => .keyword .in_

def LogicalOp.token : LogicalOp → TokenKind
  | .and => .keyword .and
  | .or => .keyword .or

/-- What the concrete syntax leaves open. -/
structure Style where
  -- The trees that are put in parentheses where an operator or an access may follow or precede.
  wraps : Expr → Bool
  -- The trees that are put in parentheses where nothing can go on with them.
  encloses : Expr → Bool
  -- Whether a comma follows the last property of an object and the last argument of a call.
  trailing : Bool
  -- Whether the only parameter of a lambda stands without parentheses.
  bare : Bool

namespace Style

/-- The tokens of a tree as an operand, given its own. -/
def operand (s : Style) (e : Expr) (tokens : List TokenKind) : List TokenKind :=
  TokenKind.parenthesized (s.wraps e) tokens

/-- The tokens of a tree that ends with the brackets, the commas or the keywords around it, given
its own. -/
def item (s : Style) (e : Expr) (tokens : List TokenKind) : List TokenKind :=
  TokenKind.parenthesized (s.encloses e) tokens

def parameters (s : Style) (ps : List Name) : List TokenKind :=
  match s.bare, ps with
  | true, [p] => [.identifier p.text]
  | _, _ =>
    .symbol .leftParen :: TokenKind.listed false (ps.map fun p => [.identifier p.text]) ++
      [.symbol .rightParen]

end Style

namespace Expr

/-- Trees that need no parentheses as operands. -/
def isPlain : Expr → Bool
  | .literal .. | .identifier .. | .topic _ | .object .. | .array .. => true
  | _ => false

mutual

def tokens (s : Style) : Expr → List TokenKind
  | .literal _ l => [l.token]
  | .identifier _ name => [.identifier name]
  | .topic _ => [.symbol .percent]
  | .unary _ op argument => op.token :: s.operand argument (argument.tokens s)
  | .binary _ op left right =>
    s.operand left (left.tokens s) ++ op.token :: s.operand right (right.tokens s)
  | .logical _ op left right =>
    s.operand left (left.tokens s) ++ op.token :: s.operand right (right.tokens s)
  | .coalesce _ left right =>
    s.operand left (left.tokens s) ++ .symbol .questionQuestion :: s.operand right (right.tokens s)
  -- An `else` after a consequent that is a conditional would be taken for its own.
  | .conditional _ test consequent alternate =>
    .keyword .if_ :: s.item test (test.tokens s) ++
      .keyword .then_ :: s.operand consequent (consequent.tokens s) ++ alternateTokens s alternate
  | .object _ properties =>
    .symbol .leftBrace :: TokenKind.listed s.trailing (propertiesTokens s properties) ++
      [.symbol .rightBrace]
  | .array _ elements =>
    .symbol .leftBracket :: elementsTokens s elements ++ [.symbol .rightBracket]
  | .member _ target key computed extended =>
    s.operand target (target.tokens s) ++
      if computed then .symbol .leftBracket :: s.item key (key.tokens s) ++ [.symbol .rightBracket]
      else [.symbol (if extended then .colonColon else .dot), key.nameToken]
  | .call _ callee arguments =>
    s.operand callee (callee.tokens s) ++
      (.symbol .leftParen :: TokenKind.listed s.trailing (argumentsTokens s arguments) ++
        [.symbol .rightParen])
  | .pipe _ head stages => s.operand head (head.tokens s) ++ stagesTokens s stages
  | .lambda _ parameters body =>
    s.parameters parameters ++ .symbol .arrow :: s.item body (body.tokens s)
  | .letIn _ declarations body =>
    .keyword .let_ :: declarationsTokens s declarations ++ s.item body (body.tokens s)

def nameToken : Expr → TokenKind
  | .identifier _ name => .ofName name
  | _ => .endOfInput

def alternateTokens (s : Style) : Option Expr → List TokenKind
  | none => []
  | some e => .keyword .else_ :: s.item e (e.tokens s)

/-- The tokens of each property. -/
def propertiesTokens (s : Style) : List (Property Expr) → List (List TokenKind)
  | [] => []
  | ⟨key, value, _⟩ :: ps =>
    (key.token :: .symbol .colon :: s.item value (value.tokens s)) :: propertiesTokens s ps

def elementTokens (s : Style) : Option Expr → List TokenKind
  | none => []
  | some e => s.item e (e.tokens s)

/-- A comma follows every element and every hole. -/
def elementsTokens (s : Style) : List (Option Expr) → List TokenKind
  | [] => []
  | e :: es => elementTokens s e ++ .symbol .comma :: elementsTokens s es

def argumentTokens (s : Style) : Argument Expr → List TokenKind
  | .value e => s.item e (e.tokens s)
  | .placeholder _ => [.symbol .hash]

/-- The tokens of each argument. -/
def argumentsTokens (s : Style) : List (Argument Expr) → List (List TokenKind)
  | [] => []
  | a :: as => argumentTokens s a :: argumentsTokens s as

def stagesTokens (s : Style) : List (Stage Expr) → List TokenKind
  | [] => []
  | ⟨optional, body⟩ :: ss =>
    .symbol (if optional then .pipeQuestion else .pipe) :: s.operand body (body.tokens s) ++
      stagesTokens s ss

def declarationsTokens (s : Style) : List (Declaration Expr) → List TokenKind
  | [] => []
  | ⟨name, init, _⟩ :: ds =>
    .identifier name.text :: .symbol .equal :: s.item init (init.tokens s) ++ .symbol .comma ::
      declarationsTokens s ds

end

def written (s : Style) (e : Expr) : String := String.ofList (TokenKind.writeAll (e.tokens s))

end Expr

end ExprLang
