/-!
Positions in a text and the spans between them. An offset counts UTF-8 bytes from 0; lines and
columns count from 1, a column being one character. Only a newline ends a line.

These numbers have no bound here. Kept in words of 32 bits they are the same for texts of fewer than
2^32 bytes only: the upper bits of a greater offset are dropped, and a line or a column may leave
the range one byte earlier.
-/
namespace ExprLang

structure Position where
  offset : Nat
  line : Nat
  column : Nat
deriving DecidableEq, Repr, Inhabited

namespace Position

def start : Position := ⟨0, 1, 1⟩

def advance (p : Position) (c : Char) : Position :=
  if c = '\n' then ⟨p.offset + c.utf8Size, p.line + 1, 1⟩
  else ⟨p.offset + c.utf8Size, p.line, p.column + 1⟩

def advanceBy (p : Position) (cs : List Char) : Position := cs.foldl advance p

@[simp] theorem advanceBy_nil (p : Position) : p.advanceBy [] = p := rfl

@[simp] theorem advanceBy_cons (p : Position) (c : Char) (cs : List Char) :
    p.advanceBy (c :: cs) = (p.advance c).advanceBy cs := rfl

theorem advanceBy_append (p : Position) (as bs : List Char) :
    p.advanceBy (as ++ bs) = (p.advanceBy as).advanceBy bs := List.foldl_append

@[simp] theorem advance_offset (p : Position) (c : Char) :
    (p.advance c).offset = p.offset + c.utf8Size := by
  unfold advance
  split <;> rfl

end Position

structure Span where
  start : Position
  stop : Position
deriving DecidableEq, Repr, Inhabited

namespace Span

def point (p : Position) : Span := ⟨p, p⟩

/-- The earlier start and the later end; on a tie the first span's own. -/
def merge (a b : Span) : Span where
  start := if b.start.offset < a.start.offset then b.start else a.start
  stop := if b.stop.offset > a.stop.offset then b.stop else a.stop

def size (s : Span) : Nat := s.stop.offset - s.start.offset

def isEmpty (s : Span) : Bool := s.size == 0

def text (s : Span) : String := toString s.start.line ++ ":" ++ toString s.start.column

end Span

end ExprLang
