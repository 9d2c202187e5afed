import ExprLang.Operation.Order
import ExprLang.Proofs.Doubles.Numerals
import ExprLang.Proofs.Lexing.Literals

/-!
Texts as operands. A text in decimal digits is the same integer for numbers and for big integers. A
text in another radix is a number only, and digits with underscores are a big integer only.
-/
namespace ExprLang

open Binary64

namespace Text

variable {cs ds sign : List Char} {s : String}

theorem isWhiteSpace_of_not_isTriviaSpace {c : Char} (h : isTriviaSpace c = false) :
    isWhiteSpace c = false := by
  rw [isTriviaSpace, Bool.or_eq_false_iff] at h
  exact h.1

theorem trim_eq_self (h : ∀ c ∈ cs, isWhiteSpace c = false) : trim cs = cs := by
  have hreverse : ∀ c ∈ cs.reverse.head?, isWhiteSpace c = false := fun c hc =>
    h c (List.mem_reverse.1 (List.mem_of_mem_head? hc))
  rw [trim, dropWhile_eq_self fun c hc => h c (List.mem_of_mem_head? hc),
    dropWhile_eq_self hreverse, List.reverse_reverse]

/-- The radix that the character behind a zero marks. -/
def radixOf? : Char → Option Nat
  | 'x' | 'X' => some 16
  | 'o' | 'O' => some 8
  | 'b' | 'B' => some 2
  | _ => none

/-- Decimal digits behind an optional sign. -/
inductive WritesDecimal : List Char → Bool → Nat → Prop
  | intro {sign ds : List Char} (hsign : sign = [] ∨ sign = ['+'] ∨ sign = ['-']) (hne : ds ≠ [])
    (hds : ∀ d ∈ ds, d.isDigit) :
    WritesDecimal (sign ++ ds) (sign == ['-']) (Reading.digitsValue ds)

/-- Digits of a radix behind its mark, without a sign. -/
inductive WritesRadix : List Char → Nat → List Nat → Prop
  | intro {mark : Char} {radix : Nat} {ds : List Char} (hmark : radixOf? mark = some radix)
    (hne : ds ≠ []) (hds : ∀ d ∈ ds, (Reading.digit? radix d).isSome) :
    WritesRadix ('0' :: mark :: ds) radix (ds.filterMap (Reading.digit? radix))

/-- Decimal digits with underscores, which may stand anywhere behind the first digit. -/
inductive IsSeparated : List Char → Prop
  | intro {sign ds : List Char} {d : Char} (hsign : sign = [] ∨ sign = ['+'] ∨ sign = ['-'])
    (hd : d.isDigit) (hds : ∀ c ∈ ds, c.isDigit ∨ c = '_') (hmem : '_' ∈ ds) :
    IsSeparated (sign ++ d :: ds)

section Numbers

theorem mapM_eq_some_filterMap {α β : Type} {f : α → Option β} {xs : List α}
    (h : ∀ x ∈ xs, (f x).isSome) : xs.mapM f = some (xs.filterMap f) := by
  induction xs with
  | nil => rfl
  | cons x xs ih =>
    obtain ⟨y, hy⟩ := Option.isSome_iff_exists.1 (h x List.mem_cons_self)
    rw [List.mapM_cons, hy, ih fun z hz => h z (List.mem_cons_of_mem _ hz),
      List.filterMap_cons_some hy]
    rfl

/-- Without letters but those of an exponent, and without white space at its ends, a text is read
as a decimal. -/
theorem toNumber_of_plain (htrim : trim s.toList = cs) (hne : cs ≠ [])
    (h : ∀ c ∈ cs, c.isDigit = true ∨ c ∈ ['.', 'e', 'E', '+', '-', '_']) :
    toNumber s = (Reading.decimal? cs).getD nan := by
  have hmark : ∀ mark ds, cs = '0' :: mark :: ds → radixOf? mark = none := by
    rintro mark ds rfl
    have hmem := h mark (List.mem_cons_of_mem _ List.mem_cons_self)
    unfold radixOf?
    split <;> first | rfl | exact absurd hmem (by decide)
  have hinfinity : ∀ text : String, 'I' ∈ text.toList → cs ≠ text.toList := by
    rintro text hmem rfl
    exact absurd (h 'I' hmem) (by decide)
  rw [toNumber, htrim]
  split
  · exact absurd rfl hne
  case h_2 | h_3 | h_4 | h_5 | h_6 | h_7 => cases hmark _ _ rfl
  case h_8 =>
    rw [if_neg (not_or.2 ⟨hinfinity _ (by decide), hinfinity _ (by decide)⟩),
      if_neg (hinfinity _ (by decide))]

theorem toNumber_of_radix {radix : Nat} {vs : List Nat} (h : WritesRadix (trim s.toList) radix vs) :
    toNumber s = Reading.radixValue radix vs ∧ isNaN (toNumber s) = false := by
  generalize htrim : trim s.toList = cs at h
  obtain ⟨hmark, hne, hds⟩ := h
  rename_i mark ds
  obtain ⟨hnumber, hradix⟩ : toNumber s = radixNumber radix ds ∧
      (radix = 2 ∨ radix = 8 ∨ radix = 16) := by
    rw [toNumber, htrim]
    unfold radixOf? at hmark
    split at hmark <;> cases hmark <;> exact ⟨rfl, by decide⟩
  have hvalue : radixNumber radix ds =
      Reading.radixValue radix (ds.filterMap (Reading.digit? radix)) := by
    rw [radixNumber, if_neg (by simpa using hne), mapM_eq_some_filterMap hds]
  rw [hnumber, hvalue]
  exact ⟨rfl, (Reading.unsigned_radixValue hradix _).isNaN⟩

section Signed

variable {d : Char} (hsign : sign = [] ∨ sign = ['+'] ∨ sign = ['-']) (hd : d.isDigit = true)
  (hds : ∀ c ∈ ds, c.isDigit = true ∨ c = '_')
include hsign hd hds

theorem toNumber_signed (htrim : trim s.toList = sign ++ d :: ds) :
    toNumber s = (Reading.decimal? (sign ++ d :: ds)).getD nan := by
  refine toNumber_of_plain htrim (by simp) fun c hc => ?_
  rcases List.mem_append.1 hc with hc | hc
  · rcases hsign with rfl | rfl | rfl
    · cases hc
    · rw [List.mem_singleton.1 hc]
      exact .inr (by decide)
    · rw [List.mem_singleton.1 hc]
      exact .inr (by decide)
  · rcases List.mem_cons.1 hc with rfl | hc
    · exact .inl hd
    · refine (hds c hc).imp_right fun hc => ?_
      rw [hc]
      decide

theorem numeral?_signed : Reading.numeral? (sign ++ d :: ds) =
    if ∀ c ∈ ds, c.isDigit = true then some ⟨sign == ['-'], d :: ds, [], 0⟩ else none := by
  have htake : (d :: ds).takeWhile Char.isDigit = d :: ds.takeWhile Char.isDigit :=
    List.takeWhile_cons_of_pos hd
  have hdrop : (d :: ds).dropWhile Char.isDigit = ds.dropWhile Char.isDigit :=
    List.dropWhile_cons_of_pos hd
  rw [Reading.numeral?, (NumberLiteral.splitSign_digit hsign hd).2]
  simp only [htake, hdrop]
  by_cases hall : ∀ c ∈ ds, c.isDigit = true
  · rw [if_pos hall, List.dropWhile_eq_nil_iff.2 hall, List.takeWhile_eq_self_iff.2 hall]
    rfl
  · rw [if_neg hall]
    cases hrest : ds.dropWhile Char.isDigit with
    | nil => exact absurd (List.dropWhile_eq_nil_iff.1 hrest) hall
    | cons c rest =>
      -- What follows the digits is an underscore.
      have hdigit : c.isDigit = false := head?_dropWhile c (by rw [hrest]; exact rfl)
      have hmem : c ∈ ds := (List.dropWhile_suffix _).subset (hrest ▸ List.mem_cons_self)
      obtain rfl : c = '_' := (hds c hmem).resolve_left (by rw [hdigit]; exact Bool.false_ne_true)
      rfl

end Signed

theorem toNumber_of_decimal {negative : Bool} {m : Nat}
    (h : WritesDecimal (trim s.toList) negative m) : toNumber s = ofRatio negative m 1 := by
  generalize htrim : trim s.toList = cs at h
  obtain ⟨hsign, hne, hds⟩ := h
  rename_i sign ds
  obtain ⟨d, ds, rfl⟩ := List.exists_cons_of_ne_nil hne
  obtain ⟨hd, hds⟩ := List.forall_mem_cons.1 hds
  have hds' : ∀ c ∈ ds, c.isDigit = true ∨ c = '_' := fun c hc => .inl (hds c hc)
  obtain ⟨bits, hrounds, hbits⟩ := exists_roundsTo (Reading.digitsValue (d :: ds)) Nat.one_pos
  have hvalue : (Reading.Numeral.mk (sign == ['-']) (d :: ds) [] 0).value =
      (Reading.digitsValue (d :: ds) : ℚ) / (1 : Nat) := by
    rw [Reading.Numeral.value]
    simp
  rw [toNumber_signed hsign hd hds' htrim, Reading.decimal?, numeral?_signed hsign hd hds',
    if_pos hds, Option.map_some, Option.getD_some, ofRatio, hbits]
  exact Reading.Numeral.toFloat_of_roundsTo (hvalue ▸ hrounds)

theorem isNaN_of_separated (h : IsSeparated (trim s.toList)) : isNaN (toNumber s) = true := by
  generalize htrim : trim s.toList = cs at h
  obtain ⟨hsign, hd, hds, hmem⟩ := h
  rename_i sign ds d
  have hnot : ¬∀ c ∈ ds, c.isDigit = true := fun hall => absurd (hall '_' hmem) (by decide)
  rw [toNumber_signed hsign hd hds htrim, Reading.decimal?, numeral?_signed hsign hd hds,
    if_neg hnot, Option.map_none, Option.getD_none]
  decide +kernel

end Numbers

section Integers

theorem natural?_cons {d : Char} (hd : d.isDigit = true)
    (hds : ∀ c ∈ ds, c.isDigit = true ∨ c = '_') : Reading.natural? (d :: ds) =
      some (Reading.digitsValue ((d :: ds).filter Char.isDigit)) := by
  have hne : d ≠ '_' := by
    rintro rfl
    cases hd
  have hall : ∀ c ∈ d :: ds, (c.isDigit || decide (c = '_')) = true := by
    simpa only [List.forall_mem_cons, Bool.or_eq_true, decide_eq_true_eq] using ⟨.inl hd, hds⟩
  exact if_pos ⟨hne, List.all_eq_true.2 hall⟩

theorem of_isSome_natural? (h : (Reading.natural? cs).isSome) : ∃ d ds, cs = d :: ds ∧
    d.isDigit = true ∧ ∀ c ∈ ds, c.isDigit = true ∨ c = '_' := by
  cases cs with
  | nil => cases h
  | cons d ds =>
    rw [Reading.natural?] at h
    split at h
    case isTrue hvalid =>
      obtain ⟨hne, hall⟩ := hvalid
      rw [List.all_eq_true] at hall
      simp only [List.forall_mem_cons, Bool.or_eq_true, decide_eq_true_eq] at hall
      exact ⟨d, ds, rfl, hall.1.resolve_right hne, hall.2⟩
    case isFalse => cases h

theorem integer?_minus (cs : List Char) :
    Reading.integer? ('-' :: cs) = (Reading.natural? cs).map (Reading.signed true) := by
  rw [Reading.integer?]
  cases Reading.natural? cs <;> rfl

theorem integer?_signed {d : Char} (hsign : sign = [] ∨ sign = ['+'] ∨ sign = ['-'])
    (hd : d.isDigit = true) : Reading.integer? (sign ++ d :: ds) =
      (Reading.natural? (d :: ds)).map (Reading.signed (sign == ['-'])) := by
  rcases hsign with rfl | rfl | rfl
  · rw [List.nil_append, Reading.integer?]
    · rfl
    · rintro _ ⟨⟩
      cases hd
    · rintro _ ⟨⟩
      cases hd
  · rfl
  · exact integer?_minus _

theorem of_isSome_integer? (h : (Reading.integer? cs).isSome) : ∃ sign d ds,
    (sign = [] ∨ sign = ['+'] ∨ sign = ['-']) ∧ d.isDigit = true ∧
      (∀ c ∈ ds, c.isDigit = true ∨ c = '_') ∧ cs = sign ++ d :: ds := by
  fun_cases Reading.integer? cs with
  | case1 cs =>
    rw [integer?_minus, Option.isSome_map] at h
    obtain ⟨d, ds, rfl, hd, hds⟩ := of_isSome_natural? h
    exact ⟨['-'], d, ds, .inr (.inr rfl), hd, hds, rfl⟩
  | case2 cs =>
    rw [Reading.integer?, Option.isSome_map] at h
    obtain ⟨d, ds, rfl, hd, hds⟩ := of_isSome_natural? h
    exact ⟨['+'], d, ds, .inr (.inl rfl), hd, hds, rfl⟩
  | case3 _ hminus hplus =>
    rw [Reading.integer?, Option.isSome_map] at h
    · obtain ⟨d, ds, rfl, hd, hds⟩ := of_isSome_natural? h
      exact ⟨[], d, ds, .inl rfl, hd, hds, rfl⟩
    · exact hminus
    · exact hplus

theorem toInteger?_of_ne_nil (h : trim s.toList ≠ []) :
    toInteger? s = Reading.integer? (trim s.toList) := by
  rw [toInteger?]
  split
  · exact absurd ‹_› h
  · rfl

theorem toInteger?_of_decimal {negative : Bool} {m : Nat}
    (h : WritesDecimal (trim s.toList) negative m) :
    toInteger? s = some (Reading.signed negative m) := by
  have heq := toInteger?_of_ne_nil (s := s)
  generalize trim s.toList = cs at h heq
  obtain ⟨hsign, hne, hds⟩ := h
  obtain ⟨d, ds, rfl⟩ := List.exists_cons_of_ne_nil hne
  have hfilter : (d :: ds).filter Char.isDigit = d :: ds := List.filter_eq_self.2 hds
  obtain ⟨hd, hds⟩ := List.forall_mem_cons.1 hds
  rw [heq (by simp), integer?_signed hsign hd, natural?_cons hd fun c hc => .inl (hds c hc),
    hfilter, Option.map_some]

theorem toInteger?_of_radix {radix : Nat} {vs : List Nat}
    (h : WritesRadix (trim s.toList) radix vs) : toInteger? s = none := by
  have heq := toInteger?_of_ne_nil (s := s)
  generalize trim s.toList = cs at h heq
  obtain ⟨hmark, -, -⟩ := h
  rw [heq (List.cons_ne_nil _ _), ← Option.not_isSome_iff_eq_none]
  intro hsome
  obtain ⟨sign, d, ds, hsign, -, hds, hcs⟩ := of_isSome_integer? hsome
  rcases hsign with rfl | rfl | rfl
  · have hmem := hds _ ((List.cons.inj hcs).2 ▸ List.mem_cons_self)
    unfold radixOf? at hmark
    split at hmark <;> first | exact absurd hmem (by decide) | cases hmark
  · cases hcs
  · cases hcs

theorem isSome_toInteger?_of_separated (h : IsSeparated (trim s.toList)) :
    (toInteger? s).isSome := by
  have heq := toInteger?_of_ne_nil (s := s)
  generalize trim s.toList = cs at h heq
  obtain ⟨hsign, hd, hds, -⟩ := h
  rw [heq (by simp), integer?_signed hsign hd, natural?_cons hd hds]
  rfl

/-- Nothing else is read as a big integer. -/
theorem of_isSome_toInteger? (h : (toInteger? s).isSome) : trim s.toList = [] ∨
    (∃ negative m, WritesDecimal (trim s.toList) negative m) ∨ IsSeparated (trim s.toList) := by
  by_cases hnil : trim s.toList = []
  · exact .inl hnil
  rw [toInteger?_of_ne_nil hnil] at h
  obtain ⟨sign, d, ds, hsign, hd, hds, hcs⟩ := of_isSome_integer? h
  rw [hcs]
  by_cases hmem : '_' ∈ ds
  · exact .inr (.inr ⟨hsign, hd, hds, hmem⟩)
  · refine .inr (.inl ⟨_, _, .intro hsign (List.cons_ne_nil _ _) (List.forall_mem_cons.2 ⟨hd, ?_⟩)⟩)
    exact fun c hc => (hds c hc).resolve_right (ne_of_mem_of_not_mem hc hmem)

end Integers

end Text

namespace Value

theorem isNaN_ofRatio (negative : Bool) (num den : Nat) :
    isNaN (ofRatio negative num den) = false := by
  have hle := bitsOfRatio_le num den
  rw [ofRatio, isNaN, magnitudeBits_ofMagnitude hle, decide_eq_false_iff_not]
  exact Nat.not_lt.2 hle

theorem order?_bigint_string (n : Int) (s : String) : (bigint n).order? (string s) =
    .ok ((Text.toInteger? s).map fun m => compare n m) := rfl

open Text

/-- Against big integers, decimal digits are the integer of which the number is the double. A text
in another radix is in no order with them although it is a number, and of the texts that are no
number exactly those with underscores between digits are in order. -/
theorem order?_text_exact (s : String) :
    (∀ negative m, WritesDecimal (trim s.toList) negative m →
      toNumber s = ofRatio negative m 1 ∧ ∀ n, (bigint n).order? (string s) =
        .ok (some (compare n (Reading.signed negative m)))) ∧
    (∀ radix vs, WritesRadix (trim s.toList) radix vs →
      toNumber s = Reading.radixValue radix vs ∧ isNaN (toNumber s) = false ∧
        ∀ n, (bigint n).order? (string s) = .ok none) ∧
    (isNaN (toNumber s) = true →
      ((∀ n, (bigint n).order? (string s) = .ok none) ↔ ¬IsSeparated (trim s.toList))) ∧
    (IsSeparated (trim s.toList) → isNaN (toNumber s) = true) := by
  refine ⟨fun negative m h => ⟨toNumber_of_decimal h, fun n => ?_⟩, fun radix vs h => ?_,
    fun hnan => ?_, isNaN_of_separated⟩
  · rw [order?_bigint_string, toInteger?_of_decimal h, Option.map_some]
  · obtain ⟨hnumber, hvalid⟩ := toNumber_of_radix h
    refine ⟨hnumber, hvalid, fun n => ?_⟩
    rw [order?_bigint_string, toInteger?_of_radix h, Option.map_none]
  · simp only [order?_bigint_string, Except.ok.injEq, Option.map_eq_none_iff, forall_const]
    refine ⟨fun hnone hseparated => ?_, fun hseparated => ?_⟩
    · have hsome := isSome_toInteger?_of_separated hseparated
      rw [hnone] at hsome
      cases hsome
    · rw [← Option.not_isSome_iff_eq_none]
      intro hsome
      rcases of_isSome_toInteger? hsome with hnil | ⟨negative, m, hdecimal⟩ | h
      · have hzero : toNumber s = Binary64.ofNat 0 := by rw [toNumber, hnil]
        rw [hzero, Binary64.ofNat, isNaN_ofRatio] at hnan
        cases hnan
      · rw [toNumber_of_decimal hdecimal, isNaN_ofRatio] at hnan
        cases hnan
      · exact hseparated h

theorem order?_text_exact_blanks :
    (toNumber " -12\n" = ofRatio true 12 1 ∧
      ∀ n, (bigint n).order? (string " -12\n") = .ok (some (compare n (-12)))) ∧
    (isNaN (toNumber "0b101") = false ∧ ∀ n, (bigint n).order? (string "0b101") = .ok none) ∧
    isNaN (toNumber "12px") = true ∧ (∀ n, (bigint n).order? (string "12px") = .ok none) ∧
    isNaN (toNumber "1_2") = true := by
  have hdecimal : WritesDecimal (['-'] ++ ['1', '2']) true 12 :=
    .intro (.inr (.inr rfl)) (List.cons_ne_nil _ _) (List.all_eq_true.1 (by decide))
  have hradix : WritesRadix ['0', 'b', '1', '0', '1'] 2 [1, 0, 1] :=
    .intro rfl (List.cons_ne_nil _ _) (List.all_eq_true.1 (by decide))
  have hseparated : IsSeparated ([] ++ '1' :: ['_', '2']) :=
    .intro (.inl rfl) rfl
      (List.forall_mem_cons.2 ⟨.inr rfl, List.forall_mem_singleton.2 (.inl rfl)⟩) (by decide)
  rw [show ['-'] ++ ['1', '2'] = trim " -12\n".toList by decide] at hdecimal
  rw [show ['0', 'b', '1', '0', '1'] = trim "0b101".toList by decide] at hradix
  rw [show [] ++ '1' :: ['_', '2'] = trim "1_2".toList by decide] at hseparated
  have hnan : isNaN (toNumber "12px") = true := by decide +kernel
  have hnot : ¬IsSeparated (trim "12px".toList) := fun h =>
    absurd (isSome_toInteger?_of_separated h) (by decide)
  exact ⟨(order?_text_exact _).1 _ _ hdecimal, ((order?_text_exact _).2.1 _ _ hradix).2, hnan,
    ((order?_text_exact _).2.2.1 hnan).2 hnot, (order?_text_exact _).2.2.2 hseparated⟩

/-- The two kinds of numbers do not read the same texts. -/
theorem sixteen_unordered :
    toNumber "0x10" = Binary64.ofNat 16 ∧ (bigint 16).order? (string "0x10") = .ok none ∧
      isNaN (toNumber "1_000") = true ∧
      (bigint 1000).order? (string "1_000") = .ok (some .eq) :=
  ⟨by decide +kernel, rfl, by decide +kernel, rfl⟩

end Value

end ExprLang
