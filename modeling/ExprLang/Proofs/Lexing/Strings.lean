import ExprLang.Text.Quoted
import ExprLang.Token.Lexer

/-!
Quoted texts as string literals. The escapes of a quoted text are escapes of string literals with
the same meaning.
-/
namespace ExprLang

namespace Escape

theorem digit?_hexDigit {n : Nat} (h : n < 16) :
    Reading.digit? 16 (Text.hexDigit n) = some n := by
  have hall : ∀ n < 16, Reading.digit? 16 (Text.hexDigit n) = some n := by decide
  exact hall n h

theorem scan_control {n : Nat} (h : n < 0x20) (rest : List Char) :
    scan (['u', '0', '0', Text.hexDigit (n / 16), Text.hexDigit (n % 16)] ++ rest) =
      ⟨['u', '0', '0', Text.hexDigit (n / 16), Text.hexDigit (n % 16)], rest, some (Char.ofNat n),
        true⟩ := by
  have hhigh := digit?_hexDigit (show n / 16 < 16 by omega)
  have hlow := digit?_hexDigit (show n % 16 < 16 by omega)
  have hzero : Reading.digit? 16 '0' = some 0 := by decide
  have hvalid : n.isValidChar := .inl (by omega)
  have hvalue : 16 * (n / 16) + n % 16 = n := Nat.div_add_mod n 16
  change scanFixed ['u'] 4 _ = _
  simp [scanFixed, isHexDigit, hexValue, charOf?, hhigh, hlow, hzero, hvalue, hvalid]

end Escape

namespace StringBody

open Text (quoteChar)

/-- These characters of a literal are read as their meaning, and what stands after them is read
then. -/
def Means (quote : Char) (cs meaning rest : List Char) : Prop :=
  ∀ p, ∃ q, scan quote p (cs ++ rest) =
    ⟨cs ++ (scan quote q rest).lexeme, (scan quote q rest).rest,
      meaning ++ (scan quote q rest).text, (scan quote q rest).closed,
      (scan quote q rest).findings⟩

variable {quote : Char} {cs ds ms ns rest : List Char}

theorem means_nil (quote : Char) (rest : List Char) : Means quote [] [] rest := fun p => ⟨p, rfl⟩

theorem Means.append (h : Means quote cs ms (ds ++ rest)) (hds : Means quote ds ns rest) :
    Means quote (cs ++ ds) (ms ++ ns) rest := by
  intro p
  obtain ⟨q, hq⟩ := h p
  obtain ⟨r, hr⟩ := hds q
  refine ⟨r, ?_⟩
  rw [List.append_assoc, hq, hr, List.append_assoc, List.append_assoc]

theorem means_flatMap {α : Type} {f g : α → List Char}
    (h : ∀ x rest, Means quote (f x) (g x) rest) (xs : List α) (rest : List Char) :
    Means quote (xs.flatMap f) (xs.flatMap g) rest := by
  induction xs with
  | nil => exact means_nil quote rest
  | cons x xs ih =>
    rw [List.flatMap_cons, List.flatMap_cons]
    exact (h x _).append ih

theorem means_char {c : Char} (h : c ≠ '\\' ∧ c ≠ '\n' ∧ c ≠ quote) (rest : List Char) :
    Means quote [c] [c] rest := by
  refine fun p => ⟨p.advance c, ?_⟩
  rw [List.singleton_append, scan, if_neg h.2.1, if_neg h.2.2, if_neg h.1]
  rfl

theorem means_escape (hquote : quote ≠ '\\') (value : Option Char)
    (h : Escape.scan (cs ++ rest) = ⟨cs, rest, value, true⟩) :
    Means quote ('\\' :: cs) value.toList rest := by
  refine fun p => ⟨(p.advance '\\').advanceBy cs, ?_⟩
  rw [List.cons_append, scan, if_neg (by decide), if_neg hquote.symm, if_pos rfl]
  simp only [h]
  rfl

/-- The inside of a literal ends with its quote. -/
theorem Means.scan_eq (h : Means quote cs ms (quote :: rest)) (hquote : quote ≠ '\n')
    (p : Position) :
    scan quote p (cs ++ quote :: rest) = ⟨cs ++ [quote], rest, ms, true, []⟩ := by
  obtain ⟨q, hq⟩ := h p
  rw [hq, scan, if_neg hquote, if_pos rfl, List.append_nil]

theorem means_quoteChar (c : Char) (rest : List Char) : Means '"' (quoteChar c) [c] rest := by
  unfold quoteChar
  split
  case isTrue h =>
    subst h
    exact means_escape (by decide) (some _) rfl
  split
  case isTrue h =>
    subst h
    exact means_escape (by decide) (some _) rfl
  split
  case isTrue h =>
    subst h
    exact means_escape (by decide) (some _) rfl
  split
  case isTrue h =>
    subst h
    exact means_escape (by decide) (some _) rfl
  split
  case isTrue h =>
    subst h
    exact means_escape (by decide) (some _) rfl
  split
  case isTrue h =>
    subst h
    exact means_escape (by decide) (some _) rfl
  split
  case isTrue h =>
    subst h
    exact means_escape (by decide) (some _) rfl
  split
  case isTrue h =>
    have hescape := Escape.scan_control h rest
    rw [Char.ofNat_toNat] at hescape
    exact means_escape (by decide) (some c) hescape
  case isFalse hquote hbackslash _ _ hnewline _ _ _ =>
    exact means_char ⟨hbackslash, hnewline, hquote⟩ rest

/-- A quoted text is read as the text. -/
theorem means_quoted (cs rest : List Char) : Means '"' (cs.flatMap quoteChar) cs rest := by
  have h := means_flatMap means_quoteChar cs rest
  rwa [List.flatMap_singleton'] at h

end StringBody

namespace Lexer

theorem scanString_quote (p : Position) (cs rest : List Char) :
    scanString '"' p (cs.flatMap Text.quoteChar ++ '"' :: rest) =
      ⟨.string (String.ofList cs), Text.quote cs, rest, []⟩ := by
  unfold scanString
  simp only [(StringBody.means_quoted cs _).scan_eq (by decide)]
  rfl

end Lexer

end ExprLang
