import ExprLang.Json.Reader
import ExprLang.Proofs.Lexing.Numbers

/-!
Numbers in JSON texts. A number is written so that it is read up to its end, whatever comes after
it that is no part of a number. A natural number of 64 bits is read as itself; what is read for a
double depends on how the reader scales its digits.
-/
namespace ExprLang

namespace JsonNumber

namespace Literal

def fractionChars (l : Literal) : List Char := if l.fraction = [] then [] else '.' :: l.fraction

def exponentChars (l : Literal) : List Char :=
  l.exponent.elim [] fun e => 'e' :: (if e.1 then ['-'] else []) ++ e.2

def chars (l : Literal) : List Char :=
  (if l.negative then ['-'] else []) ++ (l.whole ++ (l.fractionChars ++ l.exponentChars))

structure Valid (l : Literal) : Prop where
  whole_ne_nil : l.whole ≠ []
  whole_isDigit : ∀ c ∈ l.whole, c.isDigit
  whole_zero : l.whole.head? = some '0' → l.whole.length = 1
  fraction_isDigit : ∀ c ∈ l.fraction, c.isDigit
  exponent_ne_nil : ∀ e ∈ l.exponent, e.2 ≠ []
  exponent_isDigit : ∀ e ∈ l.exponent, ∀ c ∈ e.2, c.isDigit

/-- The value that is read, if the number has one. -/
def json (l : Literal) : Json := ((ofLiteral l).map Json.number).getD .unreadable

end Literal

/-- What may follow a number without becoming a part of it. -/
def Ends (rest : List Char) : Prop :=
  ∀ c ∈ rest.head?, c.isDigit = false ∧ c ≠ '.' ∧ c ≠ 'e' ∧ c ≠ 'E'

theorem ends_nil : Ends [] := nofun

variable {l : Literal} {rest : List Char}

theorem splitDigits_append {ds rest : List Char} (hds : ∀ c ∈ ds, c.isDigit)
    (hrest : ∀ c ∈ rest.head?, c.isDigit = false) : Json.splitDigits (ds ++ rest) = (ds, rest) :=
  Prod.ext (takeWhile_append_stop hds hrest) (dropWhile_append_stop hds hrest)

theorem splitSign_of_isDigit {ds : List Char} (hne : ds ≠ []) (hds : ∀ c ∈ ds, c.isDigit)
    (rest : List Char) : Reading.splitSign (ds ++ rest) = (false, ds ++ rest) := by
  obtain ⟨d, ds, rfl⟩ := List.exists_cons_of_ne_nil hne
  have hd := hds d List.mem_cons_self
  unfold Reading.splitSign
  split
  · rename_i heq
    rw [(List.cons.inj heq).1] at hd
    cases hd
  · rename_i heq
    rw [(List.cons.inj heq).1] at hd
    cases hd
  · rfl

theorem readExponent_append (h : l.Valid) (hrest : Ends rest) :
    Json.readExponent (l.exponentChars ++ rest) = some (l.exponent, rest) := by
  obtain ⟨negative, whole, fraction, _ | ⟨down, ds⟩⟩ := l
  · change Json.readExponent rest = some (none, rest)
    cases rest with
    | nil => rfl
    | cons c rest =>
      obtain ⟨-, -, he, hE⟩ := hrest c rfl
      exact if_neg (not_or.2 ⟨he, hE⟩)
  · have hne := h.exponent_ne_nil _ rfl
    have hds := h.exponent_isDigit _ rfl
    have hsplit : Reading.splitSign ((if down then ['-'] else []) ++ (ds ++ rest)) =
        (down, ds ++ rest) := by
      cases down
      · exact splitSign_of_isDigit hne hds rest
      · rfl
    have hdigits := splitDigits_append hds fun c hc => (hrest c hc).1
    change Json.readExponent ('e' :: ((if down then ['-'] else []) ++ ds) ++ rest) = _
    rw [List.cons_append, List.append_assoc, Json.readExponent, if_pos (.inl rfl), hsplit]
    simp only [hdigits, List.isEmpty_iff, hne, if_false]

theorem isDigit_head?_exponent (hrest : Ends rest) :
    ∀ c ∈ (l.exponentChars ++ rest).head?, c.isDigit = false ∧ c ≠ '.' := by
  intro c hc
  obtain ⟨negative, whole, fraction, _ | e⟩ := l
  · exact ⟨(hrest c hc).1, (hrest c hc).2.1⟩
  · obtain rfl := Option.some.inj hc
    decide

theorem readFraction_append (h : l.Valid) (hrest : Ends rest) :
    Json.readFraction (l.fractionChars ++ (l.exponentChars ++ rest)) =
      some (l.fraction, l.exponentChars ++ rest) := by
  have hstop := isDigit_head?_exponent (l := l) hrest
  generalize l.exponentChars ++ rest = cs at *
  unfold Literal.fractionChars
  split
  case isTrue hnil =>
    rw [hnil, List.nil_append]
    unfold Json.readFraction
    split
    · exact absurd rfl (hstop _ rfl).2
    · rfl
  case isFalse hne =>
    have hdigits := splitDigits_append h.fraction_isDigit fun c hc => (hstop c hc).1
    rw [List.cons_append, Json.readFraction]
    simp only [hdigits, List.isEmpty_iff, hne, if_false]

theorem isDigit_head?_fraction (hrest : Ends rest) :
    ∀ c ∈ (l.fractionChars ++ (l.exponentChars ++ rest)).head?, c.isDigit = false := by
  intro c hc
  unfold Literal.fractionChars at hc
  split at hc
  · exact (isDigit_head?_exponent hrest c hc).1
  · obtain rfl := Option.some.inj hc
    decide

/-- A number after its sign. -/
def readUnsigned (negative : Bool) (body : List Char) : Option (Json × List Char) :=
  let (whole, rest) := Json.splitDigits body
  if whole.isEmpty || (whole.head? == some '0' && 1 < whole.length) then none
  else do
    let (fraction, rest) ← Json.readFraction rest
    let (exponent, rest) ← Json.readExponent rest
    match ofLiteral ⟨negative, whole, fraction, exponent⟩ with
    | some n => some (.number n, rest)
    | none => some (.unreadable, rest)

theorem readNumber_minus (body : List Char) :
    Json.readNumber ('-' :: body) = readUnsigned true body := rfl

theorem readNumber_isDigit {c : Char} (hc : c.isDigit) (cs : List Char) :
    Json.readNumber (c :: cs) = readUnsigned false (c :: cs) := by
  unfold Json.readNumber
  split
  rename_i negative body heq
  split at heq
  · rename_i hminus
    rw [(List.cons.inj hminus).1] at hc
    cases hc
  · obtain ⟨rfl, rfl⟩ := Prod.mk.inj heq
    rfl

theorem readUnsigned_append (h : l.Valid) (hrest : Ends rest) :
    readUnsigned l.negative (l.whole ++ (l.fractionChars ++ (l.exponentChars ++ rest))) =
      some (l.json, rest) := by
  have hzero : (l.whole.isEmpty || (l.whole.head? == some '0' && decide (1 < l.whole.length))) =
      false := by
    rw [Bool.or_eq_false_iff, Bool.and_eq_false_imp, decide_eq_false_iff_not, beq_iff_eq]
    refine ⟨by simpa using h.whole_ne_nil, fun hhead => ?_⟩
    rw [h.whole_zero hhead]
    exact Nat.lt_irrefl 1
  have hwhole := splitDigits_append h.whole_isDigit (isDigit_head?_fraction (l := l) hrest)
  rw [readUnsigned, hwhole]
  simp only [hzero, Bool.false_eq_true, if_false, readFraction_append h hrest,
    readExponent_append h hrest, Option.bind_eq_bind, Option.bind_some]
  change (match ofLiteral l with
    | some n => some (Json.number n, rest)
    | none => some (.unreadable, rest)) = _
  rw [Literal.json]
  cases ofLiteral l <;> rfl

/-- A number is read to its end. -/
theorem readNumber_chars (h : l.Valid) (hrest : Ends rest) :
    Json.readNumber (l.chars ++ rest) = some (l.json, rest) := by
  have hread := readUnsigned_append h hrest
  have hchars : l.chars ++ rest = (if l.negative then ['-'] else []) ++
      (l.whole ++ (l.fractionChars ++ (l.exponentChars ++ rest))) := by
    simp only [Literal.chars, List.append_assoc]
  rw [hchars]
  cases hneg : l.negative with
  | true =>
    rw [hneg] at hread
    exact (readNumber_minus _).trans hread
  | false =>
    obtain ⟨d, ds, hds⟩ := List.exists_cons_of_ne_nil h.whole_ne_nil
    have hd := h.whole_isDigit d (by rw [hds]; exact List.mem_cons_self)
    rw [hneg, hds] at hread
    rw [hds]
    exact (readNumber_isDigit hd _).trans hread

/-- The first character of a number. -/
theorem exists_cons_chars (h : l.Valid) :
    ∃ c cs, l.chars = c :: cs ∧ (c.isDigit = true ∨ c = '-') := by
  unfold Literal.chars
  cases l.negative with
  | true => exact ⟨_, _, rfl, .inr rfl⟩
  | false =>
    obtain ⟨d, ds, hds⟩ := List.exists_cons_of_ne_nil h.whole_ne_nil
    have hd := h.whole_isDigit d (by rw [hds]; exact List.mem_cons_self)
    rw [hds]
    exact ⟨_, _, rfl, .inl hd⟩

end JsonNumber

namespace NumberFormat

open Shortest (digits numerals_digits)

theorem json_positional (negative : Bool) {ds : List Char} (h : Numerals ds) (point : Int) :
    ∃ l : JsonNumber.Literal, l.Valid ∧
      (if negative then ['-'] else []) ++ json.positional ds point = l.chars := by
  obtain ⟨whole, fraction, hwhole, hfraction, -, heq⟩ := positional_eq json h point
  refine ⟨⟨negative, whole, if fraction = [] then ['0'] else fraction, none⟩,
    ⟨hwhole.ne_nil, hwhole.isDigit, hwhole.zero, ?_, nofun, nofun⟩, ?_⟩
  · intro c hc
    split at hc
    · obtain rfl := List.mem_singleton.1 hc
      rfl
    · exact hfraction c hc
  · rw [heq]
    by_cases hnil : fraction = [] <;> simp [JsonNumber.Literal.chars,
      JsonNumber.Literal.fractionChars, JsonNumber.Literal.exponentChars, hnil, json]

theorem json_exponential (negative : Bool) {ds : List Char} (h : Numerals ds) (point : Int) :
    ∃ l : JsonNumber.Literal, l.Valid ∧
      (if negative then ['-'] else []) ++ json.exponential ds point = l.chars := by
  obtain ⟨d, fraction, hd, hfraction, -, heq⟩ := exponential_eq json h point
  refine ⟨⟨negative, [d], fraction,
    some (decide (point - 1 < 0), Nat.toDigits 10 (point - 1).natAbs)⟩,
    ⟨List.cons_ne_nil _ _, List.forall_mem_singleton.2 hd, fun _ => rfl, hfraction, ?_, ?_⟩, ?_⟩
  · rintro _ ⟨⟩
    exact Nat.toDigits_ne_nil
  · rintro _ ⟨⟩ c hc
    exact Nat.isDigit_of_mem_toDigits (by omega) (Nat.le_refl _) hc
  · rw [heq]
    by_cases hnil : fraction = [] <;> by_cases hneg : point - 1 < 0 <;>
      simp [JsonNumber.Literal.chars, JsonNumber.Literal.fractionChars,
        JsonNumber.Literal.exponentChars, hnil, hneg, json]

theorem json_write_eq {x : Float} (hfinite : Binary64.isFinite x = true) :
    ∃ l : JsonNumber.Literal, l.Valid ∧ (json.write x).toList = l.chars := by
  cases hzero : Binary64.isZero x with
  | true =>
    refine ⟨⟨Binary64.isNegative x, ['0'], ['0'], none⟩,
      ⟨List.cons_ne_nil _ _, by simp, fun _ => rfl, by simp, by simp, by simp⟩, ?_⟩
    rw [write, isNaN_of_isFinite hfinite, hfinite, hzero]
    simp only [Bool.false_eq_true, Bool.not_true, if_false, if_true]
    cases Binary64.isNegative x <;> decide
  | false =>
    have hdigits := numerals_digits json.tie hzero
    rw [write_eq json hfinite hzero, unsigned]
    by_cases hpositional : json.isPositional (digits json.tie x).point = true
    · rw [if_pos hpositional]
      exact json_positional _ hdigits _
    · rw [if_neg hpositional]
      exact json_exponential _ hdigits _

end NumberFormat

namespace JsonNumber

/-- Numbers with a text of their own: natural numbers of 64 bits, and finite doubles. -/
def Written : JsonNumber → Prop
  | integer n => 0 ≤ n ∧ n ≤ maxSignificand
  | real x => Binary64.isFinite x

/-- What is read from the text of a number. -/
def reread (n : JsonNumber) : Json := ((Json.readNumber n.text).map (·.1)).getD .unreadable

theorem le_ofDigitChars (ds : List Char) (n : Nat) : n ≤ Nat.ofDigitChars 10 ds n := by
  induction ds generalizing n with
  | nil => rw [Nat.ofDigitChars_nil]
  | cons d ds ih =>
    rw [Nat.ofDigitChars_cons]
    exact le_trans (by omega) (ih _)

/-- Digits that fit are all taken in. -/
theorem gather_eq {ds : List Char} {n : Nat} (h : Nat.ofDigitChars 10 ds n ≤ maxSignificand) :
    gather n ds = (Nat.ofDigitChars 10 ds n, ds.length) := by
  induction ds generalizing n with
  | nil => rw [gather, Nat.ofDigitChars_nil]; rfl
  | cons d ds ih =>
    rw [Nat.ofDigitChars_cons, Nat.mul_comm 10] at h ⊢
    have hnext := le_trans (le_ofDigitChars ds _) h
    rw [gather, ih h]
    exact if_neg (Nat.not_lt.2 hnext)

theorem text_integer (n : Nat) : (integer n).text = Nat.toDigits 10 n := by
  change (toString n).toList = _
  rw [Nat.toString_eq_ofList_toDigits, String.toList_ofList]

theorem valid_toDigits (n : Nat) : Literal.Valid ⟨false, Nat.toDigits 10 n, [], none⟩ := by
  refine ⟨Nat.toDigits_ne_nil, fun c hc => Nat.isDigit_of_mem_toDigits (by omega) le_rfl hc,
    fun hzero => ?_, nofun, nofun, nofun⟩
  rcases Nat.eq_zero_or_pos n with rfl | hn
  · rfl
  · exact absurd hzero (Numerals.toDigits hn).head?_ne

theorem chars_toDigits (n : Nat) :
    Literal.chars ⟨false, Nat.toDigits 10 n, [], none⟩ = Nat.toDigits 10 n :=
  List.append_nil _

theorem exists_literal {n : JsonNumber} (h : n.Written) :
    ∃ l : Literal, l.Valid ∧ n.text = l.chars := by
  cases n with
  | integer n =>
    lift n to Nat using h.1
    exact ⟨_, valid_toDigits n, (text_integer n).trans (chars_toDigits n).symm⟩
  | real x => exact NumberFormat.json_write_eq h

/-- The text of a number is read to its end. -/
theorem readNumber_text {n : JsonNumber} (h : n.Written) (hrest : Ends rest) :
    Json.readNumber (n.text ++ rest) = some (n.reread, rest) := by
  obtain ⟨l, hl, htext⟩ := exists_literal h
  have halone := readNumber_chars hl ends_nil
  rw [List.append_nil] at halone
  rw [reread, htext, halone, readNumber_chars hl hrest]
  rfl

/-- A natural number of 64 bits is read as itself. -/
theorem reread_nat {n : Nat} (h : n ≤ maxSignificand) :
    reread (integer n) = .number (integer n) := by
  have hread := readNumber_chars (valid_toDigits n) ends_nil
  have hgather : gather 0 (Nat.toDigits 10 n) = (n, (Nat.toDigits 10 n).length) := by
    rw [gather_eq (by rwa [Nat.ofDigitChars_ten_toDigits]), Nat.ofDigitChars_ten_toDigits]
  have hliteral : ofLiteral ⟨false, Nat.toDigits 10 n, [], none⟩ = some (integer n) := by
    rw [ofLiteral]
    simp only [hgather, Nat.sub_self, List.isEmpty_nil, Option.isNone_none, decide_true,
      Bool.and_self, if_true]
    rfl
  rw [chars_toDigits, List.append_nil] at hread
  rw [reread, text_integer, hread, Literal.json, hliteral]
  rfl

end JsonNumber

end ExprLang
