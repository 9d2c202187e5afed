import ExprLang.Token

/-! What can be wrong with an expression before it runs. -/
namespace ExprLang

def maxNesting : Nat := 64

/-- The greatest height of a tree, counted in nodes. -/
def maxHeight : Nat := 128

inductive Problem where
  | unexpectedCharacter (c : Char)
  | unterminatedString
  | unterminatedComment
  | invalidNumber (text : String)
  | invalidEscape (text : String)
  | expectedToken (expected got : TokenKind)
  | expectedIdentifier (got : TokenKind)
  | expectedPropertyName (got : TokenKind)
  | expectedExpression (got : TokenKind)
  | strayPlaceholder
  | trailingToken (got : TokenKind)
  | nestingTooDeep
  | treeTooHigh
  | repeatedName (name : String)
deriving DecidableEq

namespace Problem

def code : Problem → Nat
  | expectedToken .. | expectedIdentifier _ | expectedPropertyName _ | expectedExpression _
  | strayPlaceholder | trailingToken _ => 100
  | unterminatedString => 101
  | unterminatedComment => 102
  | invalidNumber _ => 103
  | invalidEscape _ => 104
  | unexpectedCharacter _ => 105
  | nestingTooDeep | treeTooHigh => 106
  | repeatedName _ => 500

def message : Problem → String
  | unexpectedCharacter c =>
    if c = '!' then "Unexpected character '!', use 'not' for negation or '!=' for inequality"
    else "Unexpected character '" ++ c.toString ++ "'"
  | unterminatedString => "Unterminated string literal"
  | unterminatedComment => "Unterminated comment"
  | invalidNumber text => "Invalid number '" ++ text ++ "'"
  | invalidEscape text => "Invalid escape sequence '" ++ text ++ "'"
  | expectedToken expected got => "expected '" ++ expected.text ++ "', got '" ++ got.text ++ "'"
  | expectedIdentifier got => "expected identifier, got '" ++ got.text ++ "'"
  | expectedPropertyName got => "expected property name, got '" ++ got.text ++ "'"
  | expectedExpression got => "expected expression, got '" ++ got.text ++ "'"
  | strayPlaceholder => "placeholder '#' is only allowed as a call argument"
  | trailingToken got => "unexpected '" ++ got.text ++ "' after expression"
  | nestingTooDeep => "maximum expression nesting depth is " ++ toString maxNesting
  | treeTooHigh => "expression is nested more than " ++ toString maxHeight ++ " levels deep"
  | repeatedName name => "\"" ++ name ++ "\" name defined inside let expression was repeated"

end Problem

structure Finding where
  problem : Problem
  span : Span
deriving DecidableEq

end ExprLang
