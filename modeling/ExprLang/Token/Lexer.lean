import ExprLang.CompileError
import ExprLang.Token.NumberLiteral
import ExprLang.Token.StringLiteral
import ExprLang.Token.Trivia

/-!
From text to tokens. A character that begins no token is reported and skipped; reading stops once
the log of errors is full. The tokens end with exactly one end of input.

A lexeme is what was read. Cut out of the text between two offsets that are words of 32 bits, it is
the same for texts of fewer than 2^32 bytes only.
-/
namespace ExprLang

namespace Lexer

structure Scanned where
  kind : TokenKind
  lexeme : List Char
  rest : List Char
  findings : List Finding

/-- A symbol at the front of a text; the longest one wins. -/
def scanSymbol : List Char → Option (Symbol × List Char × List Char)
  | '=' :: '=' :: cs => some (.equalEqual, ['=', '='], cs)
  | '=' :: '>' :: cs => some (.arrow, ['=', '>'], cs)
  | '=' :: cs => some (.equal, ['='], cs)
  | '<' :: '=' :: cs => some (.lessEqual, ['<', '='], cs)
  | '<' :: cs => some (.less, ['<'], cs)
  | '>' :: '=' :: cs => some (.greaterEqual, ['>', '='], cs)
  | '>' :: cs => some (.greater, ['>'], cs)
  | '|' :: '?' :: cs => some (.pipeQuestion, ['|', '?'], cs)
  | '|' :: cs => some (.pipe, ['|'], cs)
  | ':' :: ':' :: cs => some (.colonColon, [':', ':'], cs)
  | ':' :: cs => some (.colon, [':'], cs)
  | '?' :: '?' :: cs => some (.questionQuestion, ['?', '?'], cs)
  | '!' :: '=' :: cs => some (.notEqual, ['!', '='], cs)
  | '+' :: cs => some (.plus, ['+'], cs)
  | '-' :: cs => some (.minus, ['-'], cs)
  | '*' :: cs => some (.star, ['*'], cs)
  | '/' :: cs => some (.slash, ['/'], cs)
  | '^' :: cs => some (.caret, ['^'], cs)
  | '&' :: cs => some (.ampersand, ['&'], cs)
  | '#' :: cs => some (.hash, ['#'], cs)
  | '%' :: cs => some (.percent, ['%'], cs)
  | '(' :: cs => some (.leftParen, ['('], cs)
  | ')' :: cs => some (.rightParen, [')'], cs)
  | '[' :: cs => some (.leftBracket, ['['], cs)
  | ']' :: cs => some (.rightBracket, [']'], cs)
  | '\x7b' :: cs => some (.leftBrace, ['\x7b'], cs)
  | '\x7d' :: cs => some (.rightBrace, ['\x7d'], cs)
  | ',' :: cs => some (.comma, [','], cs)
  | '.' :: cs => some (.dot, ['.'], cs)
  | _ => none

def scanString (quote : Char) (p : Position) (cs : List Char) : Scanned :=
  let body := StringBody.scan quote (p.advance quote) cs
  let lexeme := quote :: body.lexeme
  ⟨.string (String.ofList body.text), lexeme, body.rest,
    body.findings ++
      if body.closed then [] else [⟨.unterminatedString, ⟨p, p.advanceBy lexeme⟩⟩]⟩

/-- A number literal that is not valid still yields a number token. -/
def scanNumber (p : Position) (cs : List Char) : Scanned :=
  let n := NumberLiteral.scan cs
  ⟨.number (n.value.getD Binary64.nan), n.lexeme, n.rest,
    if n.value.isSome then []
    else [⟨.invalidNumber (String.ofList n.lexeme), ⟨p, p.advanceBy n.lexeme⟩⟩]⟩

def wordKind (word : String) : TokenKind :=
  match Keyword.ofText? word with
  | some k => .keyword k
  | none => .identifier word

def scanWord (cs : List Char) : Scanned :=
  let word := cs.takeWhile isIdentifierPart
  ⟨wordKind (String.ofList word), word, cs.dropWhile isIdentifierPart, []⟩

def scanToken (p : Position) (c : Char) (cs : List Char) : Option Scanned :=
  if c = '"' ∨ c = '\'' then some (scanString c p cs)
  else if c.isDigit || (c = '.' && (cs.head?.map Char.isDigit).getD false) then
    some (scanNumber p (c :: cs))
  else if isIdentifierStart c then some (scanWord (c :: cs))
  else (scanSymbol (c :: cs)).map fun (s, lexeme, rest) => ⟨.symbol s, lexeme, rest, []⟩

theorem scanSymbol_append {cs lexeme rest : List Char} {s : Symbol}
    (h : scanSymbol cs = some (s, lexeme, rest)) :
    lexeme ++ rest = cs ∧ lexeme ≠ [] := by
  unfold scanSymbol at h
  split at h
  all_goals simp only [Option.some.injEq, Prod.mk.injEq, reduceCtorEq] at h
  all_goals
    obtain ⟨_, rfl, rfl⟩ := h
    simp

theorem scanNumber_lexeme_ne_nil (p : Position) {c : Char} (cs : List Char)
    (h : c.isDigit = true ∨ c = '.') : (scanNumber p (c :: cs)).lexeme ≠ [] := by
  simp only [scanNumber, NumberLiteral.scan]
  split
  · simp [NumberLiteral.scanHex]
  · simp [NumberLiteral.scanHex]
  · rcases h with h | rfl
    · simp [NumberLiteral.scanDecimal, h]
    · simp [NumberLiteral.scanDecimal, NumberLiteral.fractionPart,
        show Char.isDigit '.' = false from rfl]

theorem isIdentifierPart_of_start {c : Char} (h : isIdentifierStart c = true) :
    isIdentifierPart c = true := by
  simp only [isIdentifierStart, isIdentifierPart, Bool.or_eq_true] at *
  rcases h with (h | h) | h <;> simp [h]

/-- A token is a piece of the text at its front. -/
theorem scanToken_append {p : Position} {c : Char} {cs : List Char} {t : Scanned}
    (h : scanToken p c cs = some t) : t.lexeme ++ t.rest = c :: cs ∧ t.lexeme ≠ [] := by
  unfold scanToken at h
  split at h
  · cases h
    simp [scanString, StringBody.lexeme_append_rest]
  split at h
  · rename_i hc
    cases h
    refine ⟨NumberLiteral.lexeme_append_rest _, scanNumber_lexeme_ne_nil p cs ?_⟩
    simp only [Bool.or_eq_true, Bool.and_eq_true, decide_eq_true_eq] at hc
    exact hc.imp id And.left
  split at h
  · rename_i hc
    cases h
    simp [scanWord, isIdentifierPart_of_start hc]
  · simp only [Option.map_eq_some_iff] at h
    obtain ⟨⟨s, lexeme, rest⟩, hs, rfl⟩ := h
    exact scanSymbol_append hs

theorem length_rest_lt {p : Position} {c : Char} {cs : List Char} {t : Scanned}
    (h : scanToken p c cs = some t) : t.rest.length < (c :: cs).length := by
  obtain ⟨happ, hne⟩ := scanToken_append h
  have hlen := congrArg List.length happ
  have := List.length_pos_iff.2 hne
  rw [List.length_append] at hlen
  omega

structure Lexed where
  tokens : List Token
  findings : List Finding

def endAt (p : Position) (findings : List Finding) : Lexed :=
  ⟨[⟨.endOfInput, .point p⟩], findings⟩

def Lexed.report (fs : List Finding) (l : Lexed) : Lexed := { l with findings := fs ++ l.findings }

def Lexed.push (t : Token) (l : Lexed) : Lexed := { l with tokens := t :: l.tokens }

/-- Reads tokens until the text ends or so many more errors were found. Trivia are skipped before
the count is looked at, except directly after a token. -/
def scan (budget : Nat) (p : Position) (cs : List Char) : Lexed :=
  let t := Trivia.scan .between p cs
  let budget := budget - t.findings.length
  if budget = 0 then endAt t.stop t.findings
  else match _ : t.rest with
    | [] => endAt t.stop t.findings
    | c :: rest =>
      match hs : scanToken t.stop c rest with
      | none =>
        let next := t.stop.advance c
        ((scan (budget - 1) next rest).report [⟨.unexpectedCharacter c, ⟨t.stop, next⟩⟩]).report
          t.findings
      | some s =>
        let stop := t.stop.advanceBy s.lexeme
        let budget := budget - s.findings.length
        let more := if budget = 0 then endAt stop [] else scan budget stop s.rest
        ((more.report s.findings).push ⟨s.kind, ⟨t.stop, stop⟩⟩).report t.findings
termination_by cs.length
decreasing_by
  · have hrest : t.rest.length ≤ cs.length := Trivia.length_rest_le .between p cs
    rw [‹t.rest = c :: rest›, List.length_cons] at hrest
    omega
  · have hrest : t.rest.length ≤ cs.length := Trivia.length_rest_le .between p cs
    rw [‹t.rest = c :: rest›] at hrest
    have htoken := length_rest_lt hs
    omega

end Lexer

def lex (text : String) : Lexer.Lexed := Lexer.scan ErrorLog.limit .start text.toList

end ExprLang
