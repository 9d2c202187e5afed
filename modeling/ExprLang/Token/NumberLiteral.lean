import ExprLang.Number.Reading
import ExprLang.Text.Alphabetic
import ExprLang.Text.Numeric

/-! Number literals: decimals with an optional fraction and exponent, and hexadecimal integers. -/
namespace ExprLang

def isIdentifierStart (c : Char) : Bool := Text.isAlphabetic c || c = '_' || c = '$'

def isIdentifierPart (c : Char) : Bool :=
  Text.isAlphabetic c || Text.isNumeric c || c = '_' || c = '$'

/-- The characters taken for a number literal; without a value they are not a number. -/
structure NumberLiteral where
  lexeme : List Char
  rest : List Char
  value : Option Float

namespace NumberLiteral

/-- An exponent mark with what follows it. The digits are none when there are none. -/
structure ExponentPart where
  lexeme : List Char
  rest : List Char
  value : Option Int

def splitSign : List Char → List Char × List Char
  | '+' :: cs => (['+'], cs)
  | '-' :: cs => (['-'], cs)
  | cs => ([], cs)

def exponentPart : List Char → ExponentPart
  | [] => ⟨[], [], some 0⟩
  | c :: cs =>
    if c = 'e' ∨ c = 'E' then
      let (sign, body) := splitSign cs
      let ds := body.takeWhile Char.isDigit
      ⟨c :: sign ++ ds, body.dropWhile Char.isDigit,
        if ds.isEmpty then none
        else some (Reading.signed (sign == ['-']) (Reading.digitsValue ds))⟩
    else ⟨[], c :: cs, some 0⟩

def fractionPart : List Char → List Char × List Char × List Char
  | '.' :: cs => (['.'], cs.takeWhile Char.isDigit, cs.dropWhile Char.isDigit)
  | cs => ([], [], cs)

/-- Takes a decimal and any letters and digits that touch it. A whole part of several digits must
not begin with a zero. -/
def scanDecimal (cs : List Char) : NumberLiteral :=
  let whole := cs.takeWhile Char.isDigit
  let (point, fraction, rest) := fractionPart (cs.dropWhile Char.isDigit)
  let e := exponentPart rest
  let stray := e.rest.takeWhile isIdentifierPart
  let octal := whole.head? == some '0' && 1 < whole.length
  ⟨whole ++ point ++ fraction ++ e.lexeme ++ stray, e.rest.dropWhile isIdentifierPart,
    if octal || !stray.isEmpty then none
    else e.value.map fun e => Reading.Numeral.toFloat ⟨false, whole, fraction, e⟩⟩

def scanHex (mark : List Char) (cs : List Char) : NumberLiteral :=
  let isHex := fun c => (Reading.digit? 16 c).isSome
  let ds := cs.takeWhile isHex
  let rest := cs.dropWhile isHex
  let stray := rest.takeWhile isIdentifierPart
  ⟨mark ++ ds ++ stray, rest.dropWhile isIdentifierPart,
    if ds.isEmpty || !stray.isEmpty then none
    else some (Reading.radixValue 16 (ds.filterMap (Reading.digit? 16)))⟩

def scan : List Char → NumberLiteral
  | '0' :: 'x' :: cs => scanHex ['0', 'x'] cs
  | '0' :: 'X' :: cs => scanHex ['0', 'X'] cs
  | cs => scanDecimal cs

theorem splitSign_append (cs : List Char) : (splitSign cs).1 ++ (splitSign cs).2 = cs := by
  fun_cases splitSign cs <;> rfl

theorem exponentPart_append (cs : List Char) :
    (exponentPart cs).lexeme ++ (exponentPart cs).rest = cs := by
  cases cs with
  | nil => rfl
  | cons c cs =>
    simp only [exponentPart]
    split
    · simp [splitSign_append]
    · rfl

theorem fractionPart_append (cs : List Char) :
    (fractionPart cs).1 ++ ((fractionPart cs).2.1 ++ (fractionPart cs).2.2) = cs := by
  fun_cases fractionPart cs <;> simp

theorem lexeme_append_rest (cs : List Char) : (scan cs).lexeme ++ (scan cs).rest = cs := by
  unfold scan
  split
  · simp [scanHex]
  · simp [scanHex]
  · simp only [scanDecimal, List.append_assoc, List.takeWhile_append_dropWhile,
      exponentPart_append, fractionPart_append]

end NumberLiteral

end ExprLang
