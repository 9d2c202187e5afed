import ExprLang.Proofs.Decimals
import ExprLang.Token.Lexer

/-!
Texts of numbers as number literals. The text of a number without a sign has the form of a number
literal, and as a literal it has the value that it has as a decimal.
-/
namespace ExprLang

theorem takeWhile_append_stop {α : Type} {p : α → Bool} {xs rest : List α} (h : ∀ x ∈ xs, p x)
    (hrest : ∀ x ∈ rest.head?, p x = false) : (xs ++ rest).takeWhile p = xs := by
  rw [List.takeWhile_append_of_pos h]
  cases rest with
  | nil => exact List.append_nil _
  | cons x rest =>
    rw [List.takeWhile_cons_of_neg (by rw [hrest x rfl]; exact Bool.false_ne_true), List.append_nil]

theorem dropWhile_append_stop {α : Type} {p : α → Bool} {xs rest : List α} (h : ∀ x ∈ xs, p x)
    (hrest : ∀ x ∈ rest.head?, p x = false) : (xs ++ rest).dropWhile p = rest := by
  rw [List.dropWhile_append_of_pos h]
  cases rest with
  | nil => rfl
  | cons x rest =>
    rw [List.dropWhile_cons_of_neg (by rw [hrest x rfl]; exact Bool.false_ne_true)]

theorem toNat_of_isDigit {c : Char} (h : c.isDigit = true) :
    '0'.toNat ≤ c.toNat ∧ c.toNat ≤ '9'.toNat := by
  simpa [Char.isDigit, UInt32.le_iff_toNat_le] using h

/-- The parts of a number without a sign. An exponent has a sign and its digits. -/
structure NumberText where
  whole : List Char
  fraction : Option (List Char)
  exponent : Option (Bool × List Char)

namespace NumberText

def exponentOf (e : Int) : Bool × List Char := (decide (e < 0), Nat.toDigits 10 e.natAbs)

theorem signed_exponentOf (e : Int) :
    Reading.signed (exponentOf e).1 (Reading.digitsValue (exponentOf e).2) = e := by
  have hvalue : Reading.digitsValue (Nat.toDigits 10 e.natAbs) = e.natAbs :=
    Nat.ofDigitChars_ten_toDigits
  rw [exponentOf, hvalue, Reading.signed]
  split
  · rename_i hneg
    have hneg := of_decide_eq_true hneg
    omega
  · rename_i hpos
    have hpos : ¬e < 0 := fun hneg => hpos (decide_eq_true hneg)
    omega

def fractionChars (t : NumberText) : List Char := t.fraction.elim [] ('.' :: ·)

def exponentChars (t : NumberText) : List Char :=
  t.exponent.elim [] fun e => 'e' :: (if e.1 then '-' else '+') :: e.2

def chars (t : NumberText) : List Char := t.whole ++ (t.fractionChars ++ t.exponentChars)

def numeral (t : NumberText) : Reading.Numeral :=
  ⟨false, t.whole, t.fraction.getD [],
    t.exponent.elim 0 fun e => Reading.signed e.1 (Reading.digitsValue e.2)⟩

/-- The digits stand in the text, with the point at its place once the exponent is taken off. -/
def Shows (t : NumberText) (ds : List Char) (point : Int) : Prop :=
  NumberFormat.Shows ds (point - t.numeral.exponent) t.whole (t.fraction.getD [])

theorem getD_fraction (ds : List Char) :
    (if ds = [] then none else some ds).getD [] = ds := by
  split
  · rename_i hnil
    exact hnil.symm
  · rfl

structure Valid (t : NumberText) : Prop where
  whole_ne_nil : t.whole ≠ []
  whole_isDigit : ∀ c ∈ t.whole, c.isDigit
  whole_zero : t.whole.head? = some '0' → t.whole.length = 1
  fraction_isDigit : ∀ ds ∈ t.fraction, ∀ c ∈ ds, c.isDigit
  exponent_ne_nil : ∀ e ∈ t.exponent, e.2 ≠ []
  exponent_isDigit : ∀ e ∈ t.exponent, ∀ c ∈ e.2, c.isDigit

/-- What may follow a number without becoming a part of it. -/
def Ends (rest : List Char) : Prop :=
  ∀ c ∈ rest.head?, c.isDigit = false ∧ c ≠ '.' ∧ c ≠ 'e' ∧ c ≠ 'E' ∧ isIdentifierPart c = false

theorem ends_blank (rest : List Char) : Ends (' ' :: rest) := by
  rintro c hc
  obtain rfl := Option.some.inj hc
  decide

variable {t : NumberText} {rest : List Char}

theorem exponentPart_append (h : t.Valid) (hrest : Ends rest) :
    NumberLiteral.exponentPart (t.exponentChars ++ rest) =
      ⟨t.exponentChars, rest, some t.numeral.exponent⟩ := by
  obtain ⟨whole, fraction, _ | ⟨negative, ds⟩⟩ := t
  · change NumberLiteral.exponentPart rest = ⟨[], rest, some 0⟩
    cases rest with
    | nil => rfl
    | cons c rest =>
      obtain ⟨-, -, he, hE, -⟩ := hrest c rfl
      exact if_neg (not_or.2 ⟨he, hE⟩)
  · have hne := h.exponent_ne_nil _ rfl
    have hds := h.exponent_isDigit _ rfl
    have htake := takeWhile_append_stop hds fun c hc => (hrest c hc).1
    have hdrop := dropWhile_append_stop hds fun c hc => (hrest c hc).1
    have hsplit : NumberLiteral.splitSign ((if negative then '-' else '+') :: (ds ++ rest)) =
        ([if negative then '-' else '+'], ds ++ rest) := by
      cases negative <;> rfl
    change NumberLiteral.exponentPart ('e' :: (if negative then '-' else '+') :: (ds ++ rest)) = _
    rw [NumberLiteral.exponentPart, if_pos (.inl rfl), hsplit]
    simp only [htake, hdrop, List.isEmpty_iff, hne, if_false]
    cases negative <;> rfl

theorem fractionPart_append (h : t.Valid) (hrest : Ends rest) :
    NumberLiteral.fractionPart (t.fractionChars ++ (t.exponentChars ++ rest)) =
      (t.fractionChars.take 1, t.fraction.getD [], t.exponentChars ++ rest) := by
  have hstop : ∀ c ∈ (t.exponentChars ++ rest).head?, c.isDigit = false ∧ c ≠ '.' := by
    intro c hc
    obtain ⟨whole, fraction, _ | e⟩ := t
    · exact ⟨(hrest c hc).1, (hrest c hc).2.1⟩
    · obtain rfl := Option.some.inj hc
      decide
  obtain ⟨whole, _ | ds, exponent⟩ := t
  · change NumberLiteral.fractionPart (exponentChars _ ++ rest) = ([], [], exponentChars _ ++ rest)
    generalize exponentChars _ ++ rest = cs at *
    unfold NumberLiteral.fractionPart
    split
    · exact absurd rfl (hstop _ rfl).2
    · rfl
  · have hds := h.fraction_isDigit ds rfl
    change NumberLiteral.fractionPart ('.' :: (ds ++ (exponentChars _ ++ rest))) = (['.'], ds, _)
    rw [NumberLiteral.fractionPart, takeWhile_append_stop hds fun c hc => (hstop c hc).1,
      dropWhile_append_stop hds fun c hc => (hstop c hc).1]

theorem chars_append (t : NumberText) (rest : List Char) :
    t.chars ++ rest = t.whole ++ (t.fractionChars ++ (t.exponentChars ++ rest)) := by
  simp only [chars, List.append_assoc]

theorem isDigit_head?_append (h : t.Valid) (hrest : Ends rest) :
    ∀ c ∈ (t.fractionChars ++ (t.exponentChars ++ rest)).head?, c.isDigit = false := by
  intro c hc
  obtain ⟨whole, _ | ds, _ | e⟩ := t
  · exact (hrest c hc).1
  all_goals
    obtain rfl := Option.some.inj hc
    decide

/-- Nothing but a point or an exponent follows a zero at the front. -/
theorem second_char (h : t.Valid) (hrest : Ends rest) {c : Char} {cs : List Char}
    (heq : t.chars ++ rest = '0' :: c :: cs) : c = '.' ∨ c = 'e' ∨ isIdentifierPart c = false := by
  rw [chars_append] at heq
  obtain ⟨_ | ⟨d, ds⟩, fraction, exponent⟩ := t
  · exact absurd rfl h.whole_ne_nil
  obtain ⟨rfl, htail⟩ := List.cons.inj heq
  obtain rfl : ds = [] := List.length_eq_zero_iff.1 (Nat.succ.inj (h.whole_zero rfl))
  rcases fraction with _ | fs
  · rcases exponent with _ | e
    · obtain rfl : rest = c :: cs := htail
      exact .inr (.inr (hrest c rfl).2.2.2.2)
    · exact .inr (.inl (List.cons.inj htail).1.symm)
  · exact .inl (List.cons.inj htail).1.symm

theorem scanDecimal_chars (h : t.Valid) (hrest : Ends rest) :
    NumberLiteral.scanDecimal (t.chars ++ rest) =
      ⟨t.chars, rest, some t.numeral.toFloat⟩ := by
  have hdigits := isDigit_head?_append h hrest
  have hnone := fun c hc => (hrest c hc).2.2.2.2
  have hnil : ∀ c ∈ ([] : List Char), isIdentifierPart c := List.forall_mem_nil _
  have htake : rest.takeWhile isIdentifierPart = [] := takeWhile_append_stop hnil hnone
  have hdrop : rest.dropWhile isIdentifierPart = rest := dropWhile_append_stop hnil hnone
  have hoctal : (t.whole.head? == some '0' && decide (1 < t.whole.length)) = false := by
    rw [Bool.and_eq_false_imp, decide_eq_false_iff_not, beq_iff_eq]
    intro hzero
    rw [h.whole_zero hzero]
    exact Nat.lt_irrefl 1
  have hchars : t.whole ++ t.fractionChars.take 1 ++ t.fraction.getD [] ++ t.exponentChars =
      t.chars := by
    obtain ⟨whole, _ | fs, exponent⟩ := t <;> simp [chars, fractionChars]
  rw [NumberLiteral.scanDecimal, chars_append, takeWhile_append_stop h.whole_isDigit hdigits,
    dropWhile_append_stop h.whole_isDigit hdigits, fractionPart_append h hrest]
  simp only [exponentPart_append h hrest, htake, hdrop, hoctal, hchars, List.isEmpty_nil,
    Bool.not_true, Bool.or_self, Bool.false_eq_true, if_false, List.append_nil, Option.map_some]
  rfl

/-- As a literal the text has the value of the number. -/
theorem scan_chars (h : t.Valid) (hrest : Ends rest) :
    NumberLiteral.scan (t.chars ++ rest) = ⟨t.chars, rest, some t.numeral.toFloat⟩ := by
  unfold NumberLiteral.scan
  split
  · rename_i heq
    exact absurd (second_char h hrest heq) (by decide)
  · rename_i heq
    exact absurd (second_char h hrest heq) (by decide)
  · exact scanDecimal_chars h hrest

theorem exponent?_chars (h : t.Valid) :
    Reading.exponent? t.exponentChars = some t.numeral.exponent := by
  obtain ⟨whole, fraction, _ | ⟨negative, ds⟩⟩ := t
  · rfl
  · have hne := h.exponent_ne_nil _ rfl
    have hds : ds.all Char.isDigit = true := List.all_eq_true.2 (h.exponent_isDigit _ rfl)
    have hsplit : Reading.splitSign ((if negative then '-' else '+') :: ds) = (negative, ds) := by
      cases negative <;> rfl
    change Reading.exponent? ('e' :: (if negative then '-' else '+') :: ds) = _
    rw [Reading.exponent?, if_pos (.inl rfl), hsplit]
    simp only [hds, List.isEmpty_iff, hne, Bool.not_true, Bool.or_false]
    rfl

theorem splitSign_chars (h : t.Valid) : Reading.splitSign t.chars = (false, t.chars) := by
  obtain ⟨_ | ⟨d, ds⟩, fraction, exponent⟩ := t
  · exact absurd rfl h.whole_ne_nil
  · have hd := h.whole_isDigit d List.mem_cons_self
    unfold Reading.splitSign
    split
    · rename_i heq
      rw [(List.cons.inj heq).1] at hd
      cases hd
    · rename_i heq
      rw [(List.cons.inj heq).1] at hd
      cases hd
    · rfl

theorem numeral?_chars (h : t.Valid) : Reading.numeral? t.chars = some t.numeral := by
  have hends : Ends [] := nofun
  have hdigits := isDigit_head?_append h hends
  have hexponent := exponent?_chars h
  have hfraction := fractionPart_append h hends
  have hwhole : t.whole.isEmpty = false := by simpa using h.whole_ne_nil
  have hchars : t.chars = t.whole ++ (t.fractionChars ++ (t.exponentChars ++ [])) := by
    rw [← chars_append, List.append_nil]
  rw [Reading.numeral?, splitSign_chars h, hchars]
  simp only [takeWhile_append_stop h.whole_isDigit hdigits,
    dropWhile_append_stop h.whole_isDigit hdigits]
  rw [List.append_nil] at hfraction ⊢
  split
  · rename_i cs hcs
    rw [hcs, NumberLiteral.fractionPart, Prod.mk.injEq, Prod.mk.injEq] at hfraction
    rw [hfraction.2.1, hfraction.2.2, hexponent, hwhole]
    rfl
  · rename_i hpoint
    have hnone : t.fraction = none := by
      cases hf : t.fraction with
      | none => rfl
      | some ds => exact absurd (by rw [fractionChars, hf]; rfl) (hpoint (ds ++ t.exponentChars))
    rw [if_neg (by simp [hwhole]), fractionChars, hnone]
    simp only [Option.elim_none, List.nil_append, hexponent, Option.map_some, numeral, hnone,
      Option.getD_none]

/-- As a decimal the text has the same value. -/
theorem decimal?_chars (h : t.Valid) :
    Reading.decimal? t.chars = some t.numeral.toFloat := by
  rw [Reading.decimal?, numeral?_chars h, Option.map_some]

end NumberText

namespace NumberFormat

open Shortest (digits numerals_digits)

theorem value_positional {ds : List Char} (h : Numerals ds) (point : Int) :
    ∃ t : NumberText, t.Valid ∧ t.Shows ds point ∧ t.exponent = none ∧
      value.positional ds point = t.chars := by
  obtain ⟨whole, fraction, hwhole, hfraction, hshows, heq⟩ := positional_eq value h point
  refine ⟨⟨whole, if fraction = [] then none else some fraction, none⟩,
    ⟨hwhole.ne_nil, hwhole.isDigit, hwhole.zero, ?_, nofun, nofun⟩, ?_, rfl, ?_⟩
  · intro fs hfs
    split at hfs <;> cases hfs
    exact hfraction
  · rw [NumberText.Shows, NumberText.getD_fraction]
    exact (Int.sub_zero point).symm ▸ hshows
  · rw [heq]
    by_cases hnil : fraction = [] <;>
      simp [NumberText.chars, NumberText.fractionChars, NumberText.exponentChars, hnil, value]

theorem value_exponential {ds : List Char} (h : Numerals ds) (point : Int) :
    ∃ t : NumberText, t.Valid ∧ t.Shows ds point ∧
      t.exponent = some (NumberText.exponentOf (point - 1)) ∧
      value.exponential ds point = t.chars := by
  obtain ⟨d, fraction, hd, hfraction, rfl, heq⟩ := exponential_eq value h point
  refine ⟨⟨[d], if fraction = [] then none else some fraction,
    some (NumberText.exponentOf (point - 1))⟩,
    ⟨List.cons_ne_nil _ _, List.forall_mem_singleton.2 hd, fun _ => rfl, ?_, ?_, ?_⟩, ?_, rfl, ?_⟩
  · intro fs hfs
    split at hfs <;> cases hfs
    exact hfraction
  · rintro _ ⟨⟩
    exact Nat.toDigits_ne_nil
  · rintro _ ⟨⟩ c hc
    exact Nat.isDigit_of_mem_toDigits (by omega) (Nat.le_refl _) hc
  · rw [NumberText.Shows, NumberText.getD_fraction]
    refine ⟨0, 0, by simp, ?_⟩
    change (1 : Int) = (0 : Nat) + (point - Reading.signed _ _)
    rw [NumberText.signed_exponentOf]
    omega
  · rw [heq]
    by_cases hnil : fraction = [] <;> by_cases hneg : point - 1 < 0 <;>
      simp [NumberText.chars, NumberText.fractionChars, NumberText.exponentChars,
        NumberText.exponentOf, hnil, hneg, value]

theorem value_unsigned {d : Shortest.Digits} (h : Numerals d.digits) :
    ∃ t : NumberText, t.Valid ∧ t.Shows d.digits d.point ∧
      t.exponent = (if value.isPositional d.point then none
        else some (NumberText.exponentOf (d.point - 1))) ∧
      value.unsigned d = t.chars := by
  rw [unsigned]
  by_cases hpositional : value.isPositional d.point = true
  · rw [if_pos hpositional, if_pos hpositional]
    exact value_positional h _
  · rw [if_neg hpositional, if_neg hpositional]
    exact value_exponential h _

def zeroText : NumberText := ⟨['0'], none, none⟩

theorem valid_zeroText : zeroText.Valid :=
  ⟨List.cons_ne_nil _ _, List.forall_mem_singleton.2 rfl, fun _ => rfl, nofun, nofun, nofun⟩

theorem value_write_zero {x : Float} (hnegative : Binary64.isNegative x = false)
    (hzero : Binary64.isZero x = true) : (value.write x).toList = zeroText.chars := by
  have hfinite : Binary64.isFinite x = true := by
    rw [Binary64.isFinite, beq_iff_eq.1 hzero]
    decide
  rw [write, isNaN_of_isFinite hfinite, hfinite, hnegative, hzero]
  simp only [Bool.false_eq_true, Bool.not_true, if_false, if_true]
  decide

/-- The digits of a number that is not zero stand in its text. -/
theorem value_write_digits {x : Float} (hfinite : Binary64.isFinite x = true)
    (hzero : Binary64.isZero x = false) :
    ∃ t : NumberText, t.Valid ∧ t.Shows (digits value.tie x).digits (digits value.tie x).point ∧
      t.exponent = (if value.isPositional (digits value.tie x).point then none
        else some (NumberText.exponentOf ((digits value.tie x).point - 1))) ∧
      (value.write x).toList = (if Binary64.isNegative x then ['-'] else []) ++ t.chars := by
  obtain ⟨t, ht, hshows, hexponent, hunsigned⟩ := value_unsigned (numerals_digits value.tie hzero)
  exact ⟨t, ht, hshows, hexponent, hunsigned ▸ write_eq value hfinite hzero⟩

/-- What is written for a finite number without a sign. -/
theorem value_write_eq {x : Float} (hfinite : Binary64.isFinite x = true)
    (hnegative : Binary64.isNegative x = false) :
    ∃ t : NumberText, t.Valid ∧ (value.write x).toList = t.chars := by
  cases hzero : Binary64.isZero x with
  | true =>
    exact ⟨zeroText, valid_zeroText, value_write_zero hnegative hzero⟩
  | false =>
    obtain ⟨t, ht, -, -, hwrite⟩ := value_write_digits hfinite hzero
    rw [hnegative] at hwrite
    exact ⟨t, ht, hwrite⟩

end NumberFormat

namespace Lexer

/-- The text of a number is read as the number, if as a decimal it denotes it. -/
theorem scanNumber_write (p : Position) {x : Float} (hfinite : Binary64.isFinite x = true)
    (hnegative : Binary64.isNegative x = false)
    (hreads : Reading.decimal? (NumberFormat.value.write x).toList = some x) (rest : List Char) :
    scanNumber p ((NumberFormat.value.write x).toList ++ ' ' :: rest) =
      ⟨.number x, (NumberFormat.value.write x).toList, ' ' :: rest, []⟩ := by
  obtain ⟨t, ht, hwrite⟩ := NumberFormat.value_write_eq hfinite hnegative
  rw [hwrite] at hreads ⊢
  rw [NumberText.decimal?_chars ht] at hreads
  rw [scanNumber, NumberText.scan_chars ht (NumberText.ends_blank rest), hreads]
  rfl

end Lexer

end ExprLang
