import ExprLang.Number.Binary64

/-!
The double that a big integer is compared by. A magnitude is a row of 64-bit words. Its leading 64
bits are rounded to the nearest double, after their lowest bit was set to stand for what was cut
off, so far as that is looked at: of each lower word as many low bits as the leading word has bits.
-/
namespace ExprLang.BigInteger

def wordBits : Nat := 64

def bitLength (n : Nat) : Nat := if n = 0 then 0 else n.log2 + 1

def lowerWords (n : Nat) : Nat := (bitLength n - 1) / wordBits

def leadingBits (n : Nat) : Nat := (bitLength n - 1) % wordBits + 1

def word (n i : Nat) : Nat := n / Nat.pow 2 (wordBits * i) % Nat.pow 2 wordBits

/-- Whether a bit that is looked at is set in a lower word. In the highest of these the bits looked
at are just the ones that are cut off. -/
def hasTail (n : Nat) : Bool :=
  (List.range (lowerWords n)).any fun i => word n i % Nat.pow 2 (leadingBits n) != 0

def cut (n : Nat) : Nat := bitLength n - wordBits

/-- The leading 64 bits with the tail in the lowest one. -/
def head (n : Nat) : Nat :=
  let h := n / Nat.pow 2 (cut n)
  if h % 2 = 0 && hasTail n then h + 1 else h

theorem lowerWords_eq_zero {n : Nat} (h : bitLength n ≤ wordBits) : lowerWords n = 0 := by
  apply Nat.div_eq_of_lt
  simp only [wordBits] at h ⊢
  omega

theorem head_eq_self {n : Nat} (h : bitLength n ≤ wordBits) : head n = n := by
  have hc : cut n = 0 := Nat.sub_eq_zero_of_le h
  simp [head, hasTail, hc, lowerWords_eq_zero h]

def longest : Nat := 1024

/-- The double of a big integer. It is the nearest one unless the integer lies past the middle
between two doubles by no more than bits that are not looked at. -/
def toDouble (n : Int) : Float :=
  let m := n.natAbs
  if longest < bitLength m then Binary64.infinity (n < 0)
  else Binary64.ofRatio (n < 0) (head m * Nat.pow 2 (cut m)) 1

end ExprLang.BigInteger
