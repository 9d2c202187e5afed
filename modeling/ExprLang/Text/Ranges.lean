/-! Look-up in a table of code point ranges. -/
namespace ExprLang.Text

/-- Whether a code point lies in one of the ranges, which are listed in increasing order. -/
def inRanges : List (Nat × Nat) → Nat → Bool
  | [], _ => false
  | (first, last) :: rest, n =>
    if n < first then false else if n ≤ last then true else inRanges rest n

end ExprLang.Text
