import ExprLang.Span

/-! The lines of a text. -/
namespace ExprLang.Source

def splitLines : List Char → List (List Char)
  | [] => [[]]
  | c :: cs =>
    if c = '\n' then [] :: splitLines cs
    else match splitLines cs with
      | [] => [[c]]
      | l :: ls => (c :: l) :: ls

def lineCount (text : List Char) : Nat := (splitLines text).length

def trimReturns (line : List Char) : List Char :=
  (line.reverse.dropWhile (· = '\r')).reverse

def line? (text : List Char) (n : Nat) : Option (List Char) :=
  if n = 0 then none else ((splitLines text)[n - 1]?).map trimReturns

end ExprLang.Source
