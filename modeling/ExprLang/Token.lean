import ExprLang.Number.Layout
import ExprLang.Span

/-! Tokens. -/
namespace ExprLang

inductive Keyword where
  | true | false | null | and | or | not | typeof | mod | in_ | if_ | then_ | else_ | let_
deriving DecidableEq, Repr

namespace Keyword

def all : List Keyword :=
  [.true, .false, .null, .and, .or, .not, .typeof, .mod, .in_, .if_, .then_, .else_, .let_]

def text : Keyword → String
  | .true => "true"
  | .false => "false"
  | .null => "null"
  | .and => "and"
  | .or => "or"
  | .not => "not"
  | .typeof => "typeof"
  | .mod => "mod"
  | .in_ => "in"
  | .if_ => "if"
  | .then_ => "then"
  | .else_ => "else"
  | .let_ => "let"

def ofText? (s : String) : Option Keyword := all.find? fun k => k.text == s

end Keyword

inductive Symbol where
  | plus | minus | star | slash | caret | ampersand
  | equalEqual | notEqual | less | lessEqual | greater | greaterEqual
  | questionQuestion | pipe | pipeQuestion | arrow | equal
  | leftParen | rightParen | leftBracket | rightBracket | leftBrace | rightBrace
  | comma | colon | dot | colonColon | hash | percent
deriving DecidableEq, Repr

namespace Symbol

def text : Symbol → String
  | .plus => "+"
  | .minus => "-"
  | .star => "*"
  | .slash => "/"
  | .caret => "^"
  | .ampersand => "&"
  | .equalEqual => "=="
  | .notEqual => "!="
  | .less => "<"
  | .lessEqual => "<="
  | .greater => ">"
  | .greaterEqual => ">="
  | .questionQuestion => "??"
  | .pipe => "|"
  | .pipeQuestion => "|?"
  | .arrow => "=>"
  | .equal => "="
  | .leftParen => "("
  | .rightParen => ")"
  | .leftBracket => "["
  | .rightBracket => "]"
  | .leftBrace => "\x7b"
  | .rightBrace => "\x7d"
  | .comma => ","
  | .colon => ":"
  | .dot => "."
  | .colonColon => "::"
  | .hash => "#"
  | .percent => "%"

end Symbol

inductive TokenKind where
  | number (x : Float)
  -- A string literal with its escapes resolved.
  | string (s : String)
  | identifier (name : String)
  | keyword (k : Keyword)
  | symbol (s : Symbol)
  | endOfInput
deriving DecidableEq

namespace TokenKind

def text : TokenKind → String
  | number x => NumberFormat.token.write x
  | string s => "\"" ++ s ++ "\""
  | identifier name => name
  | keyword k => k.text
  | symbol s => s.text
  | endOfInput => "end of input"

def isKeyword : TokenKind → Bool
  | keyword _ => true
  | _ => false

end TokenKind

structure Token where
  kind : TokenKind
  span : Span
deriving DecidableEq

end ExprLang
