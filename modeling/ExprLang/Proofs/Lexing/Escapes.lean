import ExprLang.Proofs.Lexing.Again
import ExprLang.Proofs.Places
import Mathlib.Data.List.Chain
import Mathlib.Data.Nat.Digits.Defs
import Mathlib.Data.Vector.Defs

/-!
String literals item by item. A literal is written as a row of items, each of which stands for some
characters; it is read as these characters, whatever the items are and whichever quotes it has.
-/
namespace ExprLang

/-- A hexadecimal digit, in upper or lower case. -/
structure HexDigit where
  value : Fin 16
  upper : Bool
deriving DecidableEq

namespace HexDigit

def char (d : HexDigit) : Char :=
  if d.upper then (Text.hexDigit d.value).toUpper else Text.hexDigit d.value

def chars (ds : List HexDigit) : List Char := ds.map char

/-- The digit of a number below 16. -/
def ofNat (n : Nat) (upper : Bool) : HexDigit := ⟨Fin.ofNat 16 n, upper⟩

/-- The number that digits spell. -/
def code (ds : List HexDigit) : Nat := Nat.ofDigits 16 (ds.map (·.value.val)).reverse

theorem digit?_char (d : HexDigit) : Reading.digit? 16 d.char = some d.value.val := by
  have hall : ∀ value upper, Reading.digit? 16 (char ⟨value, upper⟩) = some value.val := by decide
  exact hall d.value d.upper

theorem isHexDigit_char (d : HexDigit) : Escape.isHexDigit d.char := by
  rw [Escape.isHexDigit, digit?_char]
  rfl

theorem isHexDigit_of_mem {ds : List HexDigit} : ∀ c ∈ chars ds, Escape.isHexDigit c := by
  intro c hc
  obtain ⟨d, -, rfl⟩ := List.mem_map.1 hc
  exact d.isHexDigit_char

theorem hexValue_chars (ds : List HexDigit) : Escape.hexValue (chars ds) = code ds := by
  have hvalues : (chars ds).filterMap (Reading.digit? 16) = ds.map (·.value.val) := by
    rw [chars, List.filterMap_map, ← List.filterMap_eq_map]
    exact congrArg (ds.filterMap ·) (funext digit?_char)
  rw [Escape.hexValue, hvalues, code, Nat.ofDigits_eq_foldr, List.foldr_reverse]
  exact congrArg (List.foldl · 0 _) (funext fun n => funext fun d => Nat.add_comm _ _)

theorem code_lt (ds : List HexDigit) : code ds < 16 ^ ds.length := by
  have hlt := Nat.ofDigits_lt_base_pow_length (b := 16) (l := (ds.map (·.value.val)).reverse)
    (by decide) (by simp)
  rwa [List.length_reverse, List.length_map] at hlt

end HexDigit

namespace Escape

open HexDigit (code)

theorem scanFixed_chars (mark : List Char) (ds : List HexDigit) (rest : List Char) :
    scanFixed mark ds.length (HexDigit.chars ds ++ rest) =
      ⟨mark ++ HexDigit.chars ds, rest, charOf? (code ds), (charOf? (code ds)).isSome⟩ := by
  have hlength : (HexDigit.chars ds).length = ds.length := List.length_map _
  have htake : ((HexDigit.chars ds ++ rest).take ds.length).takeWhile isHexDigit =
      HexDigit.chars ds := by
    rw [← hlength, List.take_left, List.takeWhile_eq_self_iff.2 HexDigit.isHexDigit_of_mem]
  have hdrop : (HexDigit.chars ds ++ rest).drop ds.length = rest := by
    rw [← hlength, List.drop_left]
  unfold scanFixed
  simp only [htake, hdrop, hlength, if_true, HexDigit.hexValue_chars]

/-- Four digits after a mark are a character or the half of one. -/
theorem scan_unit (ds : List.Vector HexDigit 4) (rest : List Char) :
    scan ('u' :: HexDigit.chars ds.toList ++ rest) =
      ⟨'u' :: HexDigit.chars ds.toList, rest, charOf? (code ds.toList),
        (charOf? (code ds.toList)).isSome⟩ := by
  have hfixed := scanFixed_chars ['u'] ds.toList rest
  rw [ds.toList_length] at hfixed
  have hne : ds.toList ≠ [] := List.ne_nil_of_length_pos (by rw [ds.toList_length]; decide)
  obtain ⟨d, ds', hds⟩ := List.exists_cons_of_ne_nil hne
  rw [List.cons_append, scan]
  · exact hfixed
  · -- A digit is no brace.
    intro tail htail
    have hd := d.isHexDigit_char
    rw [hds] at htail
    rw [(List.cons.inj htail).1] at hd
    exact absurd hd (by decide)

end Escape

/-- What goes on with a literal on the next line. -/
inductive LineEnding where
  | newline | carriageReturn | both

def LineEnding.chars : LineEnding → List Char
  | newline => ['\n']
  | carriageReturn => ['\r']
  | both => ['\r', '\n']

/-- The character that a letter after a backslash means. -/
def letterMeaning (c : Char) : Char :=
  match c with
  | 'n' => '\n'
  | 't' => '\t'
  | 'r' => '\r'
  | 'b' => '\x08'
  | 'f' => '\x0c'
  | 'v' => '\x0b'
  | c => c

/-- A quote ends neither a line nor an escape. -/
theorem marks_of_quote {quote : Char} (hquote : quote ∈ ['"', '\'']) :
    quote ≠ '\\' ∧ quote ≠ '\n' ∧ quote.isDigit = false := by
  simp only [List.mem_cons, List.not_mem_nil, or_false] at hquote
  rcases hquote with rfl | rfl <;> decide

/-- One item of a string literal with these quotes. -/
inductive StringItem (quote : Char) where
  | raw (c : Char) (h : c ≠ '\\' ∧ c ≠ '\n' ∧ c ≠ quote)
  | letter (c : Char) (h : c ∉ ['0', 'x', 'u', '\n', '\r'])
  | zero
  | byte (ds : List.Vector HexDigit 2)
  | unit (ds : List.Vector HexDigit 4) (h : (HexDigit.code ds.toList).isValidChar)
  | point (ds : List HexDigit) (hne : ds ≠ []) (h : (HexDigit.code ds).isValidChar)
  | continuation (ending : LineEnding)

namespace StringItem

open StringBody

variable {quote : Char}

def chars : StringItem quote → List Char
  | raw c _ => [c]
  | letter c _ => ['\\', c]
  | zero => ['\\', '0']
  | byte ds => '\\' :: 'x' :: HexDigit.chars ds.toList
  | unit ds _ => '\\' :: 'u' :: HexDigit.chars ds.toList
  | point ds _ _ => '\\' :: 'u' :: '\x7b' :: (HexDigit.chars ds ++ ['\x7d'])
  | continuation ending => '\\' :: ending.chars

/-- The characters that an item stands for. -/
def meaning : StringItem quote → List Char
  | raw c _ => [c]
  | letter c _ => [letterMeaning c]
  | zero => ['\x00']
  | byte ds => [Char.ofNat (HexDigit.code ds.toList)]
  | unit ds _ => [Char.ofNat (HexDigit.code ds.toList)]
  | point ds _ _ => [Char.ofNat (HexDigit.code ds)]
  | continuation _ => []

/-- A zero does not stand before a digit. -/
def Precedes (i j : StringItem quote) : Prop := i = zero → ∀ c ∈ j.chars.head?, c.isDigit = false

end StringItem

/-- The text is one string literal without errors, and nothing else. -/
def Denotes (text s : String) : Prop :=
  lex text = ⟨[⟨.string s, ⟨.start, .after text.toList⟩⟩,
    ⟨.endOfInput, .point (.after text.toList)⟩], []⟩

open StringBody in
theorem denotes_of_means {quote : Char} (hquote : quote ∈ ['"', '\'']) {body meaning : List Char}
    (h : Means quote body meaning [quote]) :
    Denotes (String.ofList (quote :: body ++ [quote])) (String.ofList meaning) := by
  have hmarks := marks_of_quote hquote
  simp only [List.mem_cons, List.not_mem_nil, or_false] at hquote
  have hbetween (p : Position) : Trivia.scan .between p (quote :: body ++ [quote]) =
      ⟨[], quote :: body ++ [quote], p, []⟩ := by
    rcases hquote with rfl | rfl <;> exact Lexer.between_eq rfl (by decide) _ p
  have htoken (p : Position) : Lexer.scanToken p quote (body ++ [quote]) =
      some ⟨.string (String.ofList meaning), quote :: (body ++ [quote]), [], []⟩ := by
    rw [Lexer.scanToken, if_pos hquote, Lexer.scanString]
    simp only [h.scan_eq hmarks.2.1]
    rfl
  have hend (p : Position) : Trivia.scan .between p [] = ⟨[], [], p, []⟩ := by rw [Trivia.scan]
  rw [Denotes, lex, String.toList_ofList,
    Lexer.scan_token (by decide) (hbetween .start) rfl rfl (htoken _) rfl,
    Lexer.scan_end (hend _) rfl rfl, Position.advanceBy_start]
  rfl

namespace StringItem

open StringBody

/-- The literal with these items. -/
def literal (quote : Char) (items : List (StringItem quote)) : String :=
  String.ofList (quote :: items.flatMap chars ++ [quote])

end StringItem

end ExprLang
