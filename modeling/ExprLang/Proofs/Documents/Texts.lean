import ExprLang.Proofs.Documents.Numbers
import ExprLang.Proofs.Lexing.Strings

/-!
Compact texts of JSON documents are read back, strings and structure as they are. Numbers come back
as they are read one by one.
-/
namespace ExprLang

open Text (quoteChar quote)

namespace Json

theorem readEscape_control {n : Nat} (h : n < 0x20) (rest : List Char) :
    readEscape (['u', '0', '0', Text.hexDigit (n / 16), Text.hexDigit (n % 16)] ++ rest) =
      some (some (Char.ofNat n), rest) := by
  have hhigh := Escape.digit?_hexDigit (show n / 16 < 16 by omega)
  have hlow := Escape.digit?_hexDigit (show n % 16 < 16 by omega)
  have hzero : Reading.digit? 16 '0' = some 0 := by decide
  have hvalue : n / 16 * 16 + n % 16 = n := Nat.div_add_mod' n 16
  have hunit : readUnit ('0' :: '0' :: Text.hexDigit (n / 16) :: Text.hexDigit (n % 16) :: rest) =
      some (n, rest) := by
    simp [readUnit, hhigh, hlow, hzero, hvalue]
  have hhighSurrogate : isHighSurrogate n = false := by
    simp only [isHighSurrogate, Bool.and_eq_false_imp, decide_eq_true_eq, decide_eq_false_iff_not]
    omega
  have hlowSurrogate : isLowSurrogate n = false := by
    simp only [isLowSurrogate, Bool.and_eq_false_imp, decide_eq_true_eq, decide_eq_false_iff_not]
    omega
  simp [readEscape, readEscapedUnit, hunit, hhighSurrogate, hlowSurrogate]

theorem readChars_backslash {cs rest : List Char} {c : Char}
    (h : readEscape cs = some (some c, rest)) (n : Nat) :
    readChars (n + 1) ('\\' :: cs) = (readChars n rest).map fun r => (r.1.map (c :: ·), r.2) := by
  rw [readChars, if_neg (by decide), if_pos rfl, h, Option.map_eq_bind]
  rfl

theorem readChars_quoteChar (c : Char) (rest : List Char) (n : Nat) :
    readChars (n + 1) (quoteChar c ++ rest) =
      (readChars n rest).map fun r => (r.1.map (c :: ·), r.2) := by
  unfold quoteChar
  iterate 7
    split
    case isTrue h =>
      subst h
      exact readChars_backslash rfl n
  split
  case isTrue h =>
    have hescape := readEscape_control h rest
    rw [Char.ofNat_toNat] at hescape
    exact readChars_backslash hescape n
  case isFalse hquote hbackslash _ _ _ _ _ hcontrol =>
    rw [List.singleton_append, readChars, if_neg hquote, if_neg hbackslash, if_neg hcontrol,
      Option.map_eq_bind]
    rfl

/-- A quoted text is read as the text. -/
theorem readChars_quoted {n : Nat} {cs : List Char} (h : cs.length < n) (rest : List Char) :
    readChars n (cs.flatMap quoteChar ++ '"' :: rest) = some (some cs, rest) := by
  induction cs generalizing n with
  | nil =>
    obtain ⟨n, rfl⟩ := Nat.exists_eq_succ_of_ne_zero (Nat.ne_of_gt h)
    rw [List.flatMap_nil, List.nil_append, readChars, if_pos rfl]
  | cons c cs ih =>
    obtain ⟨n, rfl⟩ := Nat.exists_eq_succ_of_ne_zero (Nat.ne_zero_of_lt h)
    rw [List.flatMap_cons, List.append_assoc, readChars_quoteChar,
      ih (Nat.lt_of_succ_lt_succ h)]
    rfl

theorem length_le_quoted (cs : List Char) : cs.length ≤ (cs.flatMap quoteChar).length := by
  induction cs with
  | nil => exact le_rfl
  | cons c cs ih =>
    have hone : 1 ≤ (quoteChar c).length := by
      unfold quoteChar
      repeat' split
      all_goals exact Nat.succ_le_succ (Nat.zero_le _)
    rw [List.flatMap_cons, List.length_append, List.length_cons]
    omega

mutual

/-- A document as it is read: its numbers are scaled anew. -/
def reread : Json → Json
  | number n => n.reread
  | array items => array (rereadItems items)
  | object members => object (rereadMembers members)
  | j => j

def rereadItems : List Json → List Json
  | [] => []
  | j :: js => j.reread :: rereadItems js

def rereadMembers : List (String × Json) → List (String × Json)
  | [] => []
  | (k, j) :: ms => (k, j.reread) :: rereadMembers ms

end

mutual

/-- Every part has a text of its own. -/
def Written : Json → Prop
  | number n => n.Written
  | array items => WrittenItems items
  | object members => WrittenMembers members
  | unreadable => False
  | _ => True

def WrittenItems : List Json → Prop
  | [] => True
  | j :: js => j.Written ∧ WrittenItems js

def WrittenMembers : List (String × Json) → Prop
  | [] => True
  | (_, j) :: ms => j.Written ∧ WrittenMembers ms

end

theorem textItems_cons (j : Json) {js : List Json} (h : js ≠ []) :
    textItems (j :: js) = j.text ++ ',' :: textItems js := by
  cases js with
  | nil => contradiction
  | cons => rfl

theorem textMembers_cons (k : String) (j : Json) {ms : List (String × Json)} (h : ms ≠ []) :
    textMembers ((k, j) :: ms) = quote k.toList ++ ':' :: j.text ++ ',' :: textMembers ms := by
  cases ms with
  | nil => contradiction
  | cons => rfl

/-- What may stand after a value: the end, or a separator. -/
def Follows (rest : List Char) : Prop := ∀ c ∈ rest.head?, c = ',' ∨ c = ']' ∨ c = '\x7d'

theorem Follows.ends {rest : List Char} (h : Follows rest) : JsonNumber.Ends rest := by
  intro c hc
  rcases h c hc with rfl | rfl | rfl <;> decide

theorem readValue_number {c : Char} (hc : c.isDigit = true ∨ c = '-') (cs : List Char) (n : Nat) :
    readValue (n + 1) (c :: cs) = readNumber (c :: cs) := by
  have hblank : skipBlank (c :: cs) = c :: cs := by
    refine List.dropWhile_cons_of_neg ?_
    rcases hc with hc | rfl
    · intro hblank
      simp only [isBlank, Bool.or_eq_true, decide_eq_true_eq] at hblank
      rcases hblank with ((rfl | rfl) | rfl) | rfl <;> cases hc
    · decide
  rw [readValue, hblank]
  split
  case h_7 => rfl
  all_goals
    rename_i heq
    obtain ⟨rfl, -⟩ := List.cons.inj heq
    rcases hc with hc | hc <;> cases hc

/-- The first character of a value is no blank and closes nothing. -/
theorem exists_cons_text : ∀ {j : Json}, j.Written →
    ∃ c cs, j.text = c :: cs ∧ isBlank c = false ∧ c ≠ ']'
  | null, _ => ⟨_, _, rfl, by decide⟩
  | bool b, _ => by cases b <;> exact ⟨_, _, rfl, by decide⟩
  | number n, h => by
    obtain ⟨l, hl, htext⟩ := JsonNumber.exists_literal h
    obtain ⟨c, cs, hcs, hc⟩ := JsonNumber.exists_cons_chars hl
    refine ⟨c, cs, htext.trans hcs, ?_⟩
    rcases hc with hc | rfl
    · refine ⟨?_, by rintro rfl; cases hc⟩
      rw [Bool.eq_false_iff]
      intro hblank
      simp only [isBlank, Bool.or_eq_true, decide_eq_true_eq] at hblank
      rcases hblank with ((rfl | rfl) | rfl) | rfl <;> cases hc
    · decide
  | string s, _ => ⟨_, _, rfl, by decide⟩
  | array items, _ => ⟨_, _, rfl, by decide⟩
  | object members, _ => ⟨_, _, rfl, by decide⟩

theorem skipBlank_cons {c : Char} (h : isBlank c = false) (cs : List Char) :
    skipBlank (c :: cs) = c :: cs :=
  List.dropWhile_cons_of_neg (Bool.eq_false_iff.1 h)

theorem readValue_array {cs rest : List Char} {items : List Json} {c : Char}
    (hblank : isBlank c = false) (hc : c ≠ ']') {n : Nat}
    (h : readItems n (c :: cs) = some (items, rest)) :
    readValue (n + 1) ('[' :: c :: cs) = some (array items, rest) := by
  have hstart : skipBlank ('[' :: c :: cs) = '[' :: c :: cs := rfl
  rw [readValue, hstart]
  simp only [skipBlank_cons hblank]
  split
  · rename_i heq
    exact absurd (List.cons.inj heq).1 hc
  · rw [h]
    rfl

theorem readValue_object {cs rest : List Char} {members : List (String × Json)} {n : Nat}
    (h : readMembers n ('"' :: cs) = some (some members, rest)) :
    readValue (n + 1) ('\x7b' :: '"' :: cs) = some (object members, rest) := by
  have hstart : skipBlank ('\x7b' :: '"' :: cs) = '\x7b' :: '"' :: cs := rfl
  have hname : skipBlank ('"' :: cs) = '"' :: cs := rfl
  rw [readValue, hstart]
  simp only [hname]
  change Option.map _ (readMembers n ('"' :: cs)) = _
  rw [h]
  rfl

theorem readItems_last {cs rest : List Char} {j : Json} {n : Nat}
    (h : readValue n cs = some (j, ']' :: rest)) : readItems (n + 1) cs = some ([j], rest) := by
  rw [readItems, h]
  rfl

theorem readItems_more {cs rest rest' : List Char} {j : Json} {js : List Json} {n : Nat}
    (h : readValue n cs = some (j, ',' :: rest)) (hmore : readItems n rest = some (js, rest')) :
    readItems (n + 1) cs = some (j :: js, rest') := by
  have hcomma : skipBlank (',' :: rest) = ',' :: rest := rfl
  simp only [readItems, h, Option.bind_eq_bind, Option.bind_some, hcomma, hmore]

section Members

variable {k : String} {cs rest : List Char} {j : Json} {n : Nat}

theorem readMembers_name (hn : k.toList.length < n) :
    readChars n (k.toList.flatMap quoteChar ++ ['"'] ++ ':' :: cs) =
      some (some k.toList, ':' :: cs) := by
  rw [List.append_assoc]
  exact readChars_quoted hn _

theorem readMembers_last (hn : k.toList.length < n)
    (h : readValue n cs = some (j, '\x7d' :: rest)) :
    readMembers (n + 1) (quote k.toList ++ ':' :: cs) = some (some [(k, j)], rest) := by
  have hcolon : skipBlank (':' :: cs) = ':' :: cs := rfl
  have hclose : skipBlank ('\x7d' :: rest) = '\x7d' :: rest := rfl
  have hquote : skipBlank (quote k.toList ++ ':' :: cs) = quote k.toList ++ ':' :: cs := rfl
  rw [readMembers, hquote]
  simp only [quote, List.cons_append, readMembers_name hn, Option.bind_eq_bind, Option.bind_some,
    hcolon, h, hclose, Option.map_some, String.ofList_toList]

theorem readMembers_more {rest' : List Char} {ms : List (String × Json)}
    (hn : k.toList.length < n) (h : readValue n cs = some (j, ',' :: rest))
    (hmore : readMembers n rest = some (some ms, rest')) :
    readMembers (n + 1) (quote k.toList ++ ':' :: cs) = some (some ((k, j) :: ms), rest') := by
  have hcolon : skipBlank (':' :: cs) = ':' :: cs := rfl
  have hcomma : skipBlank (',' :: rest) = ',' :: rest := rfl
  have hquote : skipBlank (quote k.toList ++ ':' :: cs) = quote k.toList ++ ':' :: cs := rfl
  rw [readMembers, hquote]
  simp only [quote, List.cons_append, readMembers_name hn, Option.bind_eq_bind, Option.bind_some,
    hcolon, h, hcomma, hmore, Option.map_some, String.ofList_toList]

end Members

theorem length_lt_quote (cs : List Char) : cs.length + 1 < (quote cs).length := by
  have hbody := length_le_quoted cs
  simp only [quote, List.cons_append, List.length_cons, List.length_append, List.length_nil]
  omega

theorem readValue_quote {s : String} {n : Nat} (hn : 2 * (quote s.toList).length ≤ n)
    (rest : List Char) : readValue n (quote s.toList ++ rest) = some (string s, rest) := by
  have hlength := length_lt_quote s.toList
  obtain ⟨n, rfl⟩ := Nat.exists_eq_succ_of_ne_zero (show n ≠ 0 by omega)
  have hchars := readChars_quoted (show s.toList.length < n by omega) rest
  have hstart : skipBlank (quote s.toList ++ rest) = quote s.toList ++ rest := rfl
  rw [readValue, hstart]
  simp only [quote, List.cons_append, List.append_assoc, List.nil_append, hchars, Option.map_some,
    String.ofList_toList]

mutual

theorem readValue_text : ∀ (j : Json) (_ : j.Written) {n : Nat} (_ : 2 * j.text.length ≤ n)
    {rest : List Char} (_ : Follows rest), readValue n (j.text ++ rest) = some (j.reread, rest)
  | null, _, n, hn, rest, _ => by
    obtain ⟨n, rfl⟩ := Nat.exists_eq_add_of_le' hn
    rfl
  | bool b, _, n, hn, rest, _ => by
    cases b <;> obtain ⟨n, rfl⟩ := Nat.exists_eq_add_of_le' hn <;> rfl
  | string s, _, n, hn, rest, _ => readValue_quote hn rest
  | number x, h, n, hn, rest, hrest => by
    obtain ⟨l, hl, htext⟩ := JsonNumber.exists_literal h
    obtain ⟨c, cs, hcs, hc⟩ := JsonNumber.exists_cons_chars hl
    have hread := JsonNumber.readNumber_text h hrest.ends
    change 2 * x.text.length ≤ n at hn
    change readValue n (x.text ++ rest) = some (x.reread, rest)
    rw [htext.trans hcs] at hn hread ⊢
    obtain ⟨n, rfl⟩ := Nat.exists_eq_succ_of_ne_zero (show n ≠ 0 by simp at hn; omega)
    exact (readValue_number hc _ _).trans hread
  | array [], _, n, hn, rest, _ => by
    obtain ⟨n, rfl⟩ := Nat.exists_eq_add_of_le' hn
    rfl
  | array (j :: js), h, n, hn, rest, _ => by
    obtain ⟨c, cs, hcs, hblank, hclose⟩ := exists_cons_text h.1
    obtain ⟨tail, htail⟩ : ∃ tail, textItems (j :: js) = c :: tail := by
      cases js with
      | nil => exact ⟨cs, hcs⟩
      | cons => exact ⟨_, by rw [textItems, hcs]; rfl; nofun⟩
    have hlength : (array (j :: js)).text.length = (textItems (j :: js)).length + 2 := by
      simp [text]
    obtain ⟨n, rfl⟩ := Nat.exists_eq_succ_of_ne_zero (show n ≠ 0 by omega)
    have hitems := readItems_text (j :: js) h (List.cons_ne_nil _ _) (n := n) (by omega) rest
    have htext : (array (j :: js)).text ++ rest = '[' :: (textItems (j :: js) ++ ']' :: rest) := by
      simp [text]
    rw [htext]
    rw [htail] at hitems ⊢
    exact readValue_array hblank hclose hitems
  | object [], _, n, hn, rest, _ => by
    obtain ⟨n, rfl⟩ := Nat.exists_eq_add_of_le' hn
    rfl
  | object ((k, j) :: ms), h, n, hn, rest, _ => by
    obtain ⟨tail, htail⟩ : ∃ tail, textMembers ((k, j) :: ms) = '"' :: tail := by
      cases ms <;> exact ⟨_, rfl⟩
    have hlength : (object ((k, j) :: ms)).text.length =
        (textMembers ((k, j) :: ms)).length + 2 := by
      simp [text]
    obtain ⟨n, rfl⟩ := Nat.exists_eq_succ_of_ne_zero (show n ≠ 0 by omega)
    have hmembers := readMembers_text ((k, j) :: ms) h (List.cons_ne_nil _ _) (n := n) (by omega)
      rest
    have htext : (object ((k, j) :: ms)).text ++ rest =
        '\x7b' :: (textMembers ((k, j) :: ms) ++ '\x7d' :: rest) := by
      simp [text]
    rw [htext]
    rw [htail] at hmembers ⊢
    exact readValue_object hmembers

theorem readItems_text : ∀ (js : List Json) (_ : WrittenItems js) (_ : js ≠ []) {n : Nat}
    (_ : 2 * (textItems js).length < n) (rest : List Char),
    readItems n (textItems js ++ ']' :: rest) = some (rereadItems js, rest)
  | [j], h, _, n + 1, hn, rest => by
    refine readItems_last (readValue_text j h.1 (Nat.lt_succ_iff.1 hn) ?_)
    rintro _ ⟨⟩
    exact .inr (.inl rfl)
  | j :: j' :: js, h, _, n + 1, hn, rest => by
    have hne : j' :: js ≠ [] := List.cons_ne_nil _ _
    rw [textItems_cons j hne] at hn ⊢
    rw [List.length_append, List.length_cons] at hn
    have hitems := readItems_text (j' :: js) h.2 hne (n := n) (by omega) rest
    rw [List.append_assoc, List.cons_append]
    refine readItems_more (readValue_text j h.1 (by omega) ?_) hitems
    rintro _ ⟨⟩
    exact .inl rfl

theorem readMembers_text : ∀ (ms : List (String × Json)) (_ : WrittenMembers ms) (_ : ms ≠ [])
    {n : Nat} (_ : 2 * (textMembers ms).length < n) (rest : List Char),
    readMembers n (textMembers ms ++ '\x7d' :: rest) = some (some (rereadMembers ms), rest)
  | [(k, j)], h, _, n + 1, hn, rest => by
    have hname := length_lt_quote k.toList
    have hlength : (textMembers [(k, j)]).length = (quote k.toList).length + j.text.length + 1 := by
      simp [textMembers, Nat.add_assoc]
    have htext : textMembers [(k, j)] ++ '\x7d' :: rest =
        quote k.toList ++ ':' :: (j.text ++ '\x7d' :: rest) := by
      simp [textMembers]
    rw [htext]
    refine readMembers_last (by omega) (readValue_text j h.1 (by omega) ?_)
    rintro _ ⟨⟩
    exact .inr (.inr rfl)
  | (k, j) :: m :: ms, h, _, n + 1, hn, rest => by
    have hname := length_lt_quote k.toList
    have hne : m :: ms ≠ [] := List.cons_ne_nil _ _
    have hlength : (textMembers ((k, j) :: m :: ms)).length =
        (quote k.toList).length + j.text.length + (textMembers (m :: ms)).length + 2 := by
      rw [textMembers_cons k j hne]
      simp only [List.length_append, List.length_cons]
      omega
    have htext : textMembers ((k, j) :: m :: ms) ++ '\x7d' :: rest =
        quote k.toList ++ ':' :: (j.text ++ ',' :: (textMembers (m :: ms) ++ '\x7d' :: rest)) := by
      rw [textMembers_cons k j hne]
      simp
    have hmembers := readMembers_text (m :: ms) h.2 hne (n := n) (by omega) rest
    rw [htext]
    refine readMembers_more (by omega) (readValue_text j h.1 (by omega) ?_) hmembers
    rintro _ ⟨⟩
    exact .inl rfl

end

mutual

/-- Reading leaves the nesting of a document as it is. -/
theorem nesting_reread : ∀ (j : Json), j.Written → j.reread.nesting = j.nesting
  | null, _ => rfl
  | bool _, _ => rfl
  | string _, _ => rfl
  | number n, h => by
    obtain ⟨l, hl, htext⟩ := JsonNumber.exists_literal h
    have hread := JsonNumber.readNumber_chars hl JsonNumber.ends_nil
    rw [List.append_nil] at hread
    rw [reread, JsonNumber.reread, htext, hread, Option.map_some, Option.getD_some,
      JsonNumber.Literal.json]
    cases JsonNumber.ofLiteral l <;> rfl
  | array items, h => by rw [reread, nesting, nesting, nestingItems_reread items h]
  | object members, h => by rw [reread, nesting, nesting, nestingMembers_reread members h]

theorem nestingItems_reread : ∀ (js : List Json), WrittenItems js →
    nestingItems (rereadItems js) = nestingItems js
  | [], _ => rfl
  | j :: js, h => by
    rw [rereadItems, nestingItems, nestingItems, nesting_reread j h.1, nestingItems_reread js h.2]

theorem nestingMembers_reread : ∀ (ms : List (String × Json)), WrittenMembers ms →
    nestingMembers (rereadMembers ms) = nestingMembers ms
  | [], _ => rfl
  | (_, j) :: ms, h => by
    rw [rereadMembers, nestingMembers, nestingMembers, nesting_reread j h.1,
      nestingMembers_reread ms h.2]

end

/-- What is read from the compact text of a document. -/
theorem read?_text {j : Json} (h : j.Written) : read? j.text = some j.reread := by
  have hread : readValue (2 * j.text.length + 1) (j.text ++ []) = some (j.reread, []) :=
    readValue_text j h (Nat.le_succ _) nofun
  rw [List.append_nil] at hread
  rw [read?, hread]
  rfl

end Json

end ExprLang
