import ExprLang.Source

/-!
Code frames: the lines around a span with their numbers, a `>` before each covered line, and
carets under the covered columns. Lines and columns are counted in words of 32 bits.
-/
namespace ExprLang.Source

def linesAbove : Nat := 2

def linesBelow : Nat := 3

def wordLimit : Nat := 0x100000000

/-- What a word keeps of a number. -/
def word (n : Nat) : Nat := n % wordLimit

/-- A way to add words, which may refuse a sum. -/
abbrev Addition := Nat → Nat → Option Nat

namespace Addition

def wrapping : Addition := fun a b => some (word (a + b))

/-- Refuses a sum that is not a word. -/
def checked : Addition := fun a b => if a + b < wordLimit then some (a + b) else none

end Addition

def lineLength (text : List Char) (n : Nat) : Nat := word ((line? text n).getD []).length

/-- Start column and number of carets under a covered line. -/
structure Marker where
  column : Nat
  count : Nat
deriving DecidableEq, Repr

/-- How many carets the first of several covered lines has; they go up to its end. -/
def headCount? (add : Addition) (text : List Char) (span : Span) : Option Nat :=
  if span.start.line < span.stop.line then
    (add (lineLength text span.start.line) 1).map (· - span.start.column)
  else some 0

/-- The marker of a line of the given length, none when the span does not cover it. -/
def marker? (span : Span) (head number length : Nat) : Option Marker :=
  if span.start.line = span.stop.line then
    if number = span.start.line then
      some ⟨span.start.column, span.stop.column - span.start.column⟩
    else none
  else if number < span.start.line ∨ span.stop.line < number then none
  else if number = span.start.line then some ⟨span.start.column, head⟩
  else if number = span.stop.line then some ⟨0, span.stop.column⟩
  else some ⟨0, length⟩

def gutter (width number : Nat) : List Char :=
  let digits := (toString number).toList
  ' ' :: List.replicate (width - digits.length) ' ' ++ digits ++ [' ', '|']

def blankDigits (cs : List Char) : List Char := cs.map fun c => if c.isDigit then ' ' else c

/-- Blanks as wide as the text before a column; tabs are kept. -/
def indent (line : List Char) (column : Nat) : List Char :=
  (line.take (column - 1)).map fun c => if c = '\t' then '\t' else ' '

def textRow (width number : Nat) (line : List Char) : List Char :=
  gutter width number ++ if line.isEmpty then [] else ' ' :: line

def carets (line : List Char) (m : Marker) : List Char :=
  indent line m.column ++ List.replicate (max m.count 1) '^'

def caretRow (width number : Nat) (line : List Char) (m : Marker) : List Char :=
  blankDigits (gutter width number) ++ ' ' :: carets line m

def lineRows (span : Span) (head width number : Nat) (line : List Char) : List (List Char) :=
  match marker? span head number (word line.length) with
  | none => [' ' :: textRow width number line]
  | some m => ['>' :: textRow width number line, ' ' :: caretRow width number line m]

def frameRows (text : List Char) (span : Span) (head top last : Nat) : List (List Char) :=
  let width := (toString last).length
  (List.range' top (last + 1 - top)).flatMap fun number =>
    lineRows span head width number ((line? text number).getD [])

/-- The rows of a frame, if no sum is refused. -/
def frame? (add : Addition) (text : List Char) (span : Span) : Option (List (List Char)) := do
  let last := min (← add span.stop.line linesBelow) (word (lineCount text))
  let head ← headCount? add text span
  let top ← add (span.start.line - (linesAbove + 1)) 1
  some (frameRows text span head top last)

def codeFrame (text : String) (span : Span) : String :=
  "\n".intercalate (((frame? .wrapping text.toList span).getD []).map String.ofList)

end ExprLang.Source
