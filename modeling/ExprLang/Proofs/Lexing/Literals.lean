import ExprLang.Proofs.Lexing.Pieces
import ExprLang.Proofs.Lexing.Standing

/-!
Number literals by their grammar. A number is valid exactly if what was taken for it belongs to the
grammar, and a decimal then has the value that it has as a text.
-/
namespace ExprLang

namespace NumberLiteral

/-- A mark with an optional sign and digits, or nothing in its place. -/
inductive IsExponent : List Char → Prop
  | absent : IsExponent []
  | present {mark : Char} {sign ds : List Char} (hmark : mark = 'e' ∨ mark = 'E')
    (hsign : sign = [] ∨ sign = ['+'] ∨ sign = ['-']) (hne : ds ≠ [])
    (hds : ∀ d ∈ ds, d.isDigit) : IsExponent (mark :: (sign ++ ds))

/-- A whole part, with or without a point and digits after it, or a point with digits after it. An
exponent may follow. -/
inductive IsDecimal : List Char → Prop
  | whole {ds e : List Char} (hds : NumberFormat.WholePart ds) (he : IsExponent e) :
    IsDecimal (ds ++ e)
  | point {ds fs e : List Char} (hds : NumberFormat.WholePart ds) (hfs : ∀ d ∈ fs, d.isDigit)
    (he : IsExponent e) : IsDecimal (ds ++ '.' :: (fs ++ e))
  | fraction {fs e : List Char} (hne : fs ≠ []) (hfs : ∀ d ∈ fs, d.isDigit) (he : IsExponent e) :
    IsDecimal ('.' :: (fs ++ e))

/-- What a decimal has before its exponent. -/
structure Mantissa (whole point fraction : List Char) : Prop where
  whole_isDigit (d : Char) (h : d ∈ whole) : d.isDigit
  whole_zero : whole.head? = some '0' → whole.length = 1
  fraction_isDigit (d : Char) (h : d ∈ fraction) : d.isDigit
  point_eq : point = [] ∧ fraction = [] ∨ point = ['.']
  ne_nil : whole ≠ [] ∨ fraction ≠ []

variable {cs e whole point fraction rest : List Char}

theorem Mantissa.of_nil (h : Mantissa [] point fraction) : point = ['.'] ∧ fraction ≠ [] := by
  have hne := h.ne_nil.resolve_left (not_not.2 rfl)
  exact ⟨h.point_eq.resolve_left fun hpoint => hne hpoint.2, hne⟩

theorem isDecimal_iff : IsDecimal cs ↔ ∃ whole point fraction e,
    Mantissa whole point fraction ∧ IsExponent e ∧ cs = whole ++ (point ++ (fraction ++ e)) := by
  constructor
  · rintro (⟨hds, he⟩ | ⟨hds, hfs, he⟩ | ⟨hne, hfs, he⟩)
    · exact ⟨_, [], [], _, ⟨hds.isDigit, hds.zero, nofun, .inl ⟨rfl, rfl⟩, .inl hds.ne_nil⟩, he,
        rfl⟩
    · exact ⟨_, ['.'], _, _, ⟨hds.isDigit, hds.zero, hfs, .inr rfl, .inl hds.ne_nil⟩, he, rfl⟩
    · exact ⟨[], ['.'], _, _, ⟨nofun, nofun, hfs, .inr rfl, .inr hne⟩, he, rfl⟩
  · rintro ⟨whole, point, fraction, e, h, he, rfl⟩
    by_cases hwhole : whole = []
    · subst hwhole
      obtain ⟨rfl, hne⟩ := h.of_nil
      change IsDecimal ('.' :: (fraction ++ e))
      exact .fraction hne h.fraction_isDigit he
    · have hds : NumberFormat.WholePart whole := ⟨hwhole, h.whole_isDigit, h.whole_zero⟩
      rcases h.point_eq with ⟨rfl, rfl⟩ | rfl
      · exact .whole hds he
      · change IsDecimal (whole ++ '.' :: (fraction ++ e))
        exact .point hds h.fraction_isDigit he

section Read

theorem head?_isExponent (he : IsExponent e) : ∀ c ∈ e.head?, c.isDigit = false ∧ c ≠ '.' := by
  cases he with
  | absent => exact nofun
  | present hmark =>
    rintro _ ⟨⟩
    rcases hmark with rfl | rfl <;> decide

theorem head?_mantissa (h : Mantissa whole point fraction) (he : IsExponent e) :
    ∀ c ∈ (point ++ (fraction ++ e)).head?, c.isDigit = false := by
  rcases h.point_eq with ⟨rfl, rfl⟩ | rfl
  · exact fun c hc => (head?_isExponent he c hc).1
  · rintro _ ⟨⟩
    rfl

/-- A decimal begins with a digit, or with a point and a digit. -/
theorem beginsNumber_mantissa (h : Mantissa whole point fraction) :
    ∃ c tail, whole ++ (point ++ (fraction ++ e)) = c :: tail ∧
      Lexer.beginsNumber c tail = true := by
  rcases whole with _ | ⟨d, ds⟩
  · obtain ⟨rfl, hne⟩ := h.of_nil
    obtain ⟨d, ds, rfl⟩ := List.exists_cons_of_ne_nil hne
    exact ⟨'.', _, rfl, h.fraction_isDigit d List.mem_cons_self⟩
  · refine ⟨d, _, rfl, ?_⟩
    rw [Lexer.beginsNumber, h.whole_isDigit d List.mem_cons_self, Bool.true_or]

theorem splitSign_digit {sign ds : List Char} {d : Char}
    (hsign : sign = [] ∨ sign = ['+'] ∨ sign = ['-']) (hd : d.isDigit = true) :
    splitSign (sign ++ d :: ds) = (sign, d :: ds) ∧
      Reading.splitSign (sign ++ d :: ds) = (sign == ['-'], d :: ds) := by
  have hplus : d ≠ '+' := by rintro rfl; cases hd
  have hminus : d ≠ '-' := by rintro rfl; cases hd
  rcases hsign with rfl | rfl | rfl
  · simp [splitSign, Reading.splitSign, hplus, hminus]
  · exact ⟨rfl, rfl⟩
  · exact ⟨rfl, rfl⟩

/-- Both readers of exponents give the same value. -/
theorem exists_exponent (he : IsExponent e) :
    ∃ n, exponentPart e = ⟨e, [], some n⟩ ∧ Reading.exponent? e = some n := by
  cases he with
  | absent => exact ⟨0, rfl, rfl⟩
  | @present mark sign ds hmark hsign hne hds =>
    have hsplit : splitSign (sign ++ ds) = (sign, ds) ∧
        Reading.splitSign (sign ++ ds) = (sign == ['-'], ds) := by
      obtain ⟨d, ds, rfl⟩ := List.exists_cons_of_ne_nil hne
      exact splitSign_digit hsign (hds d List.mem_cons_self)
    have htake : ds.takeWhile Char.isDigit = ds := List.takeWhile_eq_self_iff.2 hds
    have hdrop : ds.dropWhile Char.isDigit = [] := List.dropWhile_eq_nil_iff.2 hds
    refine ⟨Reading.signed (sign == ['-']) (Reading.digitsValue ds), ?_, ?_⟩
    · rw [exponentPart_mark hmark, hsplit.1]
      simp only [htake, hdrop, List.isEmpty_iff, hne, if_false]
      rfl
    · rw [Reading.exponent?, if_pos hmark, hsplit.2]
      simp [hne, List.all_eq_true.2 hds]

theorem numeral?_mantissa (h : Mantissa whole point fraction) (he : IsExponent e) {n : Int}
    (hn : Reading.exponent? e = some n) :
    Reading.numeral? (whole ++ (point ++ (fraction ++ e))) =
      some ⟨false, whole, fraction, n⟩ := by
  have hhead := head?_mantissa h he
  have hsign : Reading.splitSign (whole ++ (point ++ (fraction ++ e))) =
      (false, whole ++ (point ++ (fraction ++ e))) := by
    obtain ⟨c, cs, hcs, hbegins⟩ := beginsNumber_mantissa (e := e) h
    rw [hcs, Reading.splitSign]
    · rintro _ ⟨⟩
      cases hbegins
    · rintro _ ⟨⟩
      cases hbegins
  rw [Reading.numeral?, hsign]
  simp only [takeWhile_append_stop h.whole_isDigit hhead,
    dropWhile_append_stop h.whole_isDigit hhead]
  have hexponent : ∀ c ∈ e.head?, c.isDigit = false := fun c hc => (head?_isExponent he c hc).1
  rcases h.point_eq with ⟨rfl, rfl⟩ | rfl
  · have hwhole := h.ne_nil.resolve_right (not_not.2 rfl)
    simp only [List.nil_append]
    split
    · exact absurd rfl (head?_isExponent he '.' rfl).2
    · simp [hwhole, hn]
  · simp only [List.cons_append, List.nil_append,
      takeWhile_append_stop h.fraction_isDigit hexponent,
      dropWhile_append_stop h.fraction_isDigit hexponent, hn]
    rw [if_neg (by simpa only [Bool.and_eq_true, List.isEmpty_iff, not_and_or] using h.ne_nil)]
    rfl

theorem fractionPart_mantissa (h : Mantissa whole point fraction) (he : IsExponent e) :
    fractionPart (point ++ (fraction ++ e)) = (point, fraction, e) := by
  have hexponent := head?_isExponent he
  rcases h.point_eq with ⟨rfl, rfl⟩ | rfl
  · rw [List.nil_append, List.nil_append, fractionPart]
    rintro _ rfl
    exact (hexponent '.' rfl).2 rfl
  · have hstop : ∀ c ∈ e.head?, c.isDigit = false := fun c hc => (hexponent c hc).1
    change (_, (fraction ++ e).takeWhile Char.isDigit, (fraction ++ e).dropWhile Char.isDigit) = _
    rw [takeWhile_append_stop h.fraction_isDigit hstop,
      dropWhile_append_stop h.fraction_isDigit hstop]

theorem scanDecimal_mantissa (h : Mantissa whole point fraction) (he : IsExponent e) {n : Int}
    (hn : exponentPart e = ⟨e, [], some n⟩) :
    scanDecimal (whole ++ (point ++ (fraction ++ e))) =
      ⟨whole ++ (point ++ (fraction ++ e)), [],
        some (Reading.Numeral.toFloat ⟨false, whole, fraction, n⟩)⟩ := by
  have hhead := head?_mantissa h he
  have hoctal : (whole.head? == some '0' && decide (1 < whole.length)) = false := by
    rw [Bool.and_eq_false_imp, decide_eq_false_iff_not, beq_iff_eq]
    intro hzero
    rw [h.whole_zero hzero]
    exact Nat.lt_irrefl 1
  rw [scanDecimal]
  simp only [takeWhile_append_stop h.whole_isDigit hhead,
    dropWhile_append_stop h.whole_isDigit hhead, fractionPart_mantissa h he, hn, hoctal,
    List.takeWhile_nil, List.dropWhile_nil, List.append_nil, List.append_assoc]
  rfl

end Read

section Taken

end Taken

section Grammar

theorem mem_isExponent (he : IsExponent e) :
    ∀ c ∈ e, c.isDigit = true ∨ c ∈ ['e', 'E', '+', '-'] := by
  cases he with
  | absent => exact nofun
  | @present mark sign ds hmark hsign hne hds =>
    intro c hc
    simp only [List.mem_cons, List.mem_append] at hc
    rcases hc with rfl | hc | hc
    · rcases hmark with rfl | rfl <;> exact .inr (by decide)
    · rcases hsign with rfl | rfl | rfl
      · cases hc
      · rw [List.mem_singleton.1 hc]
        exact .inr (by decide)
      · rw [List.mem_singleton.1 hc]
        exact .inr (by decide)
    · exact .inl (hds c hc)

theorem mem_isDecimal (h : IsDecimal cs) :
    ∀ c ∈ cs, c.isDigit = true ∨ c ∈ ['.', 'e', 'E', '+', '-'] := by
  obtain ⟨whole, point, fraction, e, hm, he, rfl⟩ := isDecimal_iff.1 h
  intro c hc
  simp only [List.mem_append] at hc
  rcases hc with hc | hc | hc | hc
  · exact .inl (hm.whole_isDigit c hc)
  · rcases hm.point_eq with ⟨rfl, -⟩ | rfl
    · cases hc
    · rw [List.mem_singleton.1 hc]
      exact .inr (by decide)
  · exact .inl (hm.fraction_isDigit c hc)
  · exact (mem_isExponent he c hc).imp_right (List.mem_cons_of_mem _)

/-- A decimal is all taken, with the value that it has as a text. -/
theorem scan_isDecimal (h : IsDecimal cs) :
    ∃ x, Reading.decimal? cs = some x ∧ scan cs = ⟨cs, [], some x⟩ := by
  have hnot : ∀ mark, mark.isDigit = false → mark ∉ ['.', 'e', 'E', '+', '-'] →
      ∀ tail, cs = '0' :: mark :: tail → False := by
    rintro mark hdigit hmark tail rfl
    rcases mem_isDecimal h mark (by simp) with hmem | hmem
    · rw [hdigit] at hmem
      cases hmem
    · exact hmark hmem
  have hscan : scan cs = scanDecimal cs := by
    rw [scan]
    · exact hnot 'x' (by decide) (by decide)
    · exact hnot 'X' (by decide) (by decide)
  obtain ⟨whole, point, fraction, e, hm, he, rfl⟩ := isDecimal_iff.1 h
  obtain ⟨n, hpart, hread⟩ := exists_exponent he
  exact ⟨_, congrArg _ (numeral?_mantissa hm he hread),
    hscan.trans (scanDecimal_mantissa hm he hpart)⟩

theorem scanHex_digits {mark ds : List Char} (hne : ds ≠ []) (hds : ∀ d ∈ ds, Escape.isHexDigit d) :
    scanHex mark ds =
      ⟨mark ++ ds, [], some (Reading.radixValue 16 (ds.filterMap (Reading.digit? 16)))⟩ := by
  rw [scanHex_eq, List.takeWhile_eq_self_iff.2 hds, List.dropWhile_eq_nil_iff.2 hds,
    if_neg (by simp [hne])]
  simp

end Grammar

end NumberLiteral

end ExprLang
