/-! UTF-16 code units and the order of texts by them. -/
namespace ExprLang.Text

def surrogateStart : Nat := 0xD800

/-- The one or two code units of a character. -/
def unitsOf (c : Char) : List Nat :=
  if c.toNat < 0x10000 then [c.toNat]
  else
    let n := c.toNat - 0x10000
    [surrogateStart + n / 0x400, 0xDC00 + n % 0x400]

def units (cs : List Char) : List Nat := cs.flatMap unitsOf

/-- Lexicographic order; a proper beginning comes first. -/
def compareUnits : List Nat → List Nat → Ordering
  | [], [] => .eq
  | [], _ :: _ => .lt
  | _ :: _, [] => .gt
  | a :: as, b :: bs => (compare a b).then (compareUnits as bs)

def compareTexts (s t : String) : Ordering := compareUnits (units s.toList) (units t.toList)

end ExprLang.Text
