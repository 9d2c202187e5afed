import ExprLang.Proofs.Comparison.Units
import ExprLang.Proofs.Lexing.Escapes

/-!
Texts as escapes of their UTF-16 code units. An escape with four digits is read on its own. So both
halves of a character with two units are replaced, just as a half without the other is.
-/
namespace ExprLang

namespace Text

/-- The first unit of two. -/
def IsHigh (u : Nat) : Prop := 0xD800 ≤ u ∧ u < 0xDC00

/-- The second unit of two. -/
def IsLow (u : Nat) : Prop := 0xDC00 ≤ u ∧ u < 0xE000

instance : DecidablePred IsHigh := fun _ => inferInstanceAs (Decidable (_ ∧ _))

instance : DecidablePred IsLow := fun _ => inferInstanceAs (Decidable (_ ∧ _))

/-- The character of a unit on its own. -/
def ofUnit (u : Nat) : Char := if u.isValidChar then Char.ofNat u else '\uFFFD'

/-- The characters of code units. Only a half without the other one is replaced. -/
def ofUnits : List Nat → List Char
  | a :: b :: us =>
    if IsHigh a ∧ IsLow b then
      Char.ofNat (0x10000 + (a - 0xD800) * 0x400 + (b - 0xDC00)) :: ofUnits us
    else ofUnit a :: ofUnits (b :: us)
  | [a] => [ofUnit a]
  | [] => []

/-- No two units side by side are the halves of one character. -/
def Unpaired (us : List Nat) : Prop := us.IsChain fun a b => ¬(IsHigh a ∧ IsLow b)

theorem not_isHigh_toNat (c : Char) : ¬IsHigh c.toNat := by
  have hvalid : c.toNat < 0xD800 ∨ 0xDFFF < c.toNat ∧ c.toNat < 0x110000 := c.valid
  unfold IsHigh
  omega

theorem ofUnit_toNat (c : Char) : ofUnit c.toNat = c := by
  have hvalid : c.toNat.isValidChar := c.valid
  rw [ofUnit, if_pos hvalid, Char.ofNat_toNat]

theorem ofUnits_cons_of_not_isHigh {a : Nat} (h : ¬IsHigh a) (us : List Nat) :
    ofUnits (a :: us) = ofUnit a :: ofUnits us := by
  cases us with
  | nil => rfl
  | cons b us => rw [ofUnits, if_neg fun hpair => h hpair.1]

theorem unitsOf_of_lt {c : Char} (h : c.toNat < 0x10000) : unitsOf c = [c.toNat] := if_pos h

/-- A character with two units is made of its halves. -/
theorem exists_unitsOf {c : Char} (h : ¬c.toNat < 0x10000) :
    ∃ a b, unitsOf c = [a, b] ∧ IsHigh a ∧ IsLow b ∧
      Char.ofNat (0x10000 + (a - 0xD800) * 0x400 + (b - 0xDC00)) = c := by
  refine ⟨_, _, if_neg h, surrogate_bounds h, ⟨Nat.le_add_right _ _, by omega⟩, ?_⟩
  have hcode : 0x10000 + (surrogateStart + (c.toNat - 0x10000) / 0x400 - 0xD800) * 0x400 +
      (0xDC00 + (c.toNat - 0x10000) % 0x400 - 0xDC00) = c.toNat := by
    unfold surrogateStart
    omega
  rw [hcode, Char.ofNat_toNat]

/-- The units of a text are read back. -/
theorem ofUnits_units (cs : List Char) : ofUnits (units cs) = cs := by
  induction cs with
  | nil => rfl
  | cons c cs ih =>
    rw [units, List.flatMap_cons, ← units]
    by_cases hc : c.toNat < 0x10000
    · rw [unitsOf_of_lt hc, List.singleton_append, ofUnits_cons_of_not_isHigh (not_isHigh_toNat c),
        ofUnit_toNat, ih]
    · obtain ⟨a, b, hunits, ha, hb, hchar⟩ := exists_unitsOf hc
      rw [hunits, List.cons_append, List.singleton_append, ofUnits, if_pos ⟨ha, hb⟩, hchar, ih]

theorem length_ofUnits_le (us : List Nat) : (ofUnits us).length ≤ us.length := by
  fun_induction ofUnits us with
  | case1 a b us hpair ih =>
    rw [List.length_cons, List.length_cons, List.length_cons]
    omega
  | case2 a b us hpair ih =>
    rw [List.length_cons, List.length_cons]
    exact Nat.succ_le_succ ih
  | case3 a => exact Nat.le_refl 1
  | case4 => exact Nat.le_refl 0

/-- Units can be read one by one exactly if there are no pairs. -/
theorem map_ofUnit_eq_iff {us : List Nat} : us.map ofUnit = ofUnits us ↔ Unpaired us := by
  fun_induction ofUnits us with
  | case1 a b us hpair ih =>
    refine ⟨fun h => ?_, fun h => absurd hpair (List.isChain_cons_cons.1 h).1⟩
    have hlength := congrArg List.length h
    have hle := length_ofUnits_le us
    rw [List.length_map, List.length_cons, List.length_cons, List.length_cons] at hlength
    omega
  | case2 a b us hpair ih =>
    rw [List.map_cons, List.cons_inj_right, ih, Unpaired, Unpaired, List.isChain_cons_cons]
    exact (and_iff_right hpair).symm
  | case3 a => exact iff_of_true rfl (.singleton a)
  | case4 => exact iff_of_true rfl .nil

theorem units_eq_map {cs : List Char} (h : ∀ c ∈ cs, c.toNat < 0x10000) :
    units cs = cs.map Char.toNat := by
  induction cs with
  | nil => rfl
  | cons c cs ih =>
    obtain ⟨hc, hcs⟩ := List.forall_mem_cons.1 h
    rw [units, List.flatMap_cons, ← units, unitsOf_of_lt hc, ih hcs]
    rfl

/-- The units of a text have a pair exactly if a character of it has two units. -/
theorem unpaired_units_iff {cs : List Char} :
    Unpaired (units cs) ↔ ∀ c ∈ cs, c.toNat < 0x10000 := by
  constructor
  · intro h c hc
    by_contra hlarge
    obtain ⟨before, after, rfl⟩ := List.append_of_mem hc
    obtain ⟨a, b, hunits, ha, hb, -⟩ := exists_unitsOf hlarge
    have hsplit : units (before ++ c :: after) = units before ++ a :: b :: units after := by
      rw [units_append, units, units, List.flatMap_cons, hunits]
      rfl
    rw [hsplit] at h
    exact (List.isChain_cons_cons.1 h.right_of_append).1 ⟨ha, hb⟩
  · intro h
    rw [units_eq_map h, Unpaired, List.isChain_map]
    exact (List.pairwise_of_forall fun c _ hpair => not_isHigh_toNat c hpair.1).isChain

theorem units_lt {cs : List Char} {u : Nat} (h : u ∈ units cs) : u < 0x10000 := by
  obtain ⟨c, -, hu⟩ := List.mem_flatMap.1 h
  by_cases hc : c.toNat < 0x10000
  · rw [unitsOf_of_lt hc, List.mem_singleton] at hu
    exact hu ▸ hc
  · obtain ⟨a, b, hunits, ha, hb, -⟩ := exists_unitsOf hc
    rw [hunits, List.mem_cons, List.mem_singleton] at hu
    unfold IsHigh IsLow at *
    omega

end Text

/-- An escape of one code unit. -/
structure UnitEscape where
  digits : List.Vector HexDigit 4

namespace UnitEscape

open StringBody

def chars (e : UnitEscape) : List Char := '\\' :: 'u' :: HexDigit.chars e.digits.toList

/-- The code unit that an escape spells. -/
def code (e : UnitEscape) : Nat := HexDigit.code e.digits.toList

/-- The escape of a code unit, in lower case. -/
def ofCode (u : Nat) : UnitEscape where
  digits := ⟨[u / 0x1000, u / 0x100, u / 0x10, u].map (HexDigit.ofNat · false), rfl⟩

/-- The literal with these escapes. -/
def literal (quote : Char) (es : List UnitEscape) : String :=
  String.ofList (quote :: es.flatMap chars ++ [quote])

theorem code_lt (e : UnitEscape) : e.code < 0x10000 := by
  have hlt := HexDigit.code_lt e.digits.toList
  rwa [e.digits.toList_length] at hlt

theorem code_ofCode {u : Nat} (h : u < 0x10000) : (ofCode u).code = u := by
  change Nat.ofDigits 16 [u % 16, u / 0x10 % 16, u / 0x100 % 16, u / 0x1000 % 16] = u
  simp only [Nat.ofDigits_cons, Nat.ofDigits_nil]
  omega

/-- Every text can be written in escapes. -/
theorem map_code_units (s : String) :
    ((Text.units s.toList).map ofCode).map code = Text.units s.toList := by
  rw [List.map_map]
  exact (List.map_congr_left fun u hu => code_ofCode (Text.units_lt hu)).trans (List.map_id _)

theorem charOf?_code (e : UnitEscape) : Escape.charOf? e.code = some (Text.ofUnit e.code) := by
  have hlt := e.code_lt
  unfold Escape.charOf? Text.ofUnit
  split
  · rfl
  · rw [if_pos (by omega)]
    rfl

theorem means_chars {quote : Char} (hquote : quote ≠ '\\') (e : UnitEscape) (rest : List Char) :
    Means quote e.chars [Text.ofUnit e.code] rest := by
  have hescape := Escape.scan_unit e.digits rest
  rw [show HexDigit.code e.digits.toList = e.code from rfl, charOf?_code] at hescape
  exact means_escape hquote (some _) hescape

/-- Each escape is read on its own. -/
theorem denotes_literal {quote : Char} (hquote : quote ∈ ['"', '\'']) (es : List UnitEscape) :
    Denotes (literal quote es) (String.ofList ((es.map code).map Text.ofUnit)) := by
  have hmeans := means_flatMap (means_chars (marks_of_quote hquote).1) es [quote]
  have h := denotes_of_means hquote hmeans
  rwa [← List.map_eq_flatMap, ← Function.comp_def, ← List.map_map] at h

end UnitEscape

theorem Denotes.unique {text s t : String} (hs : Denotes text s) (ht : Denotes text t) : s = t := by
  have htokens := congrArg Lexer.Lexed.tokens (hs.symm.trans ht)
  exact TokenKind.string.inj (Token.mk.inj (List.cons.inj htokens).1).1

namespace UnitEscape

open Text

/-- A literal that writes code units as escapes is read as the units one by one. This is what the
units stand for exactly if no two of them are the halves of one character. So a text is read back
exactly if each of its characters has one unit. -/
theorem denotes_literal_iff {quote : Char} (hquote : quote ∈ ['"', '\'']) :
    (∀ es, Denotes (literal quote es) (String.ofList ((es.map code).map ofUnit)) ∧
      (Denotes (literal quote es) (String.ofList (ofUnits (es.map code))) ↔
        Unpaired (es.map code))) ∧
    ∀ s : String, ((units s.toList).map ofCode).map code = units s.toList ∧
      ∀ es : List UnitEscape, es.map code = units s.toList →
        (Denotes (literal quote es) s ↔ ∀ c ∈ s.toList, c.toNat < 0x10000) := by
  have hiff (es : List UnitEscape) :
      Denotes (literal quote es) (String.ofList (ofUnits (es.map code))) ↔
        Unpaired (es.map code) := by
    rw [← map_ofUnit_eq_iff]
    constructor
    · exact fun h => String.ofList_injective ((denotes_literal hquote es).unique h)
    · intro h
      rw [← h]
      exact denotes_literal hquote es
  refine ⟨fun es => ⟨denotes_literal hquote es, hiff es⟩,
    fun s => ⟨map_code_units s, fun es hes => ?_⟩⟩
  have hread : s = String.ofList (ofUnits (es.map code)) := by
    rw [hes, ofUnits_units, String.ofList_toList]
  rw [← unpaired_units_iff, ← hes, ← hiff, ← hread]

/-- The escapes of a snowman. -/
def snowman : List UnitEscape := [ofCode 0x2603]

theorem denotes_literal_iff_snowman :
    '\'' ∈ ['"', '\''] ∧ snowman.map code = units "☃".toList ∧
      Denotes (literal '\'' snowman) "☃" := by
  have hsmall : ∀ c ∈ "☃".toList, c.toNat < 0x10000 := by simp
  exact ⟨by decide, by decide,
    (((denotes_literal_iff (by decide)).2 "☃").2 snowman (by decide)).2 hsmall⟩

/-- The escapes of a face, which has two units. -/
def face : List UnitEscape := [ofCode 0xD83D, ofCode 0xDE00]

theorem face_replaced :
    literal '"' face = "\"\\ud83d\\ude00\"" ∧ face.map code = units "😀".toList ∧
      Denotes (literal '"' face) "\uFFFD\uFFFD" ∧ ¬Denotes (literal '"' face) "😀" := by
  have hread : Denotes (literal '"' face) "\uFFFD\uFFFD" := denotes_literal (by decide) face
  exact ⟨by decide, by decide, hread, fun h => absurd (hread.unique h) (by decide)⟩

end UnitEscape

end ExprLang
