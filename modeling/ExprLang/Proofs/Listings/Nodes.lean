import ExprLang.Proofs.Doubles.Writing
import ExprLang.Proofs.Listings.Agreement
import ExprLang.Proofs.Listings.Forms

/-!
Nodes whose texts begin alike, one lemma for each kind: they agree if their parts do.
-/
namespace ExprLang

open Listing

namespace Expr

/-- Trees of which one is written like the other agree. -/
def Told (e e' : Expr) : Prop := Decides e.text e'.text (Agrees e e')

variable {span span' : Span} {a a' b b' : Expr} {P : Prop}

theorem Told.of (h : Decides a.text a'.text P)
    (hcompile : P → SamePlaces a a' → ∀ start, a.compile start = a'.compile start) : Told a a' :=
  h.imp fun htext hP => ⟨htext, hcompile hP⟩

theorem eq_of_unaryHead (op op' : UnaryOp) (h : unaryHead op <+: unaryHead op') : op = op' := by
  revert h
  cases op <;> cases op' <;> decide

theorem eq_of_binaryHead (op op' : BinaryOp) (h : binaryHead op <+: binaryHead op') : op = op' := by
  revert h
  cases op <;> cases op' <;> decide

theorem eq_of_logicalHead (op op' : LogicalOp) (h : logicalHead op <+: logicalHead op') :
    op = op' := by
  revert h
  cases op <;> cases op' <;> decide

theorem closing_comma (cs : List Char) : Closing (',' :: cs) := closing_cons (by decide) cs

theorem closing_paren (cs : List Char) : Closing (')' :: cs) := closing_cons (by decide) cs

theorem closing_logicalMiddle : Closing logicalMiddle :=
  closing_of_head? (c := ')') (by decide) (by decide)

theorem closing_conditionalThen : Closing conditionalThen :=
  closing_of_head? (c := ')') (by decide) (by decide)

theorem told_unary (op op' : UnaryOp) (h : Told a a') :
    Told (unary span op a) (unary span' op' a') := by
  refine .of (P := op = op' ∧ Agrees a a' ∧ True) ?_ ?_
  · rw [text_unary, text_unary]
    exact .heads eq_of_unaryHead fun _ => h.append (closing_paren _) (closing_paren _) (.same _)
  · rintro ⟨rfl, ha, -⟩ hplaces start
    simp only [compile, ha.compile hplaces.children.head]

theorem told_binary (op op' : BinaryOp) (ha : Told a a') (hb : Told b b') :
    Told (binary span op a b) (binary span' op' a' b') := by
  refine .of (P := op = op' ∧ Agrees a a' ∧ Agrees b b' ∧ True) ?_ ?_
  · rw [text_binary, text_binary]
    exact .heads eq_of_binaryHead fun _ => ha.append (closing_comma _) (closing_comma _)
      (.cons ',' (hb.append (closing_paren _) (closing_paren _) (.same _)))
  · rintro ⟨rfl, ha, hb, -⟩ hplaces start
    simp only [compile, ha.compile hplaces.children.head, hb.compile hplaces.children.tail.head,
      ha.width]

theorem told_logical (op op' : LogicalOp) (ha : Told a a') (hb : Told b b') :
    Told (logical span op a b) (logical span' op' a' b') := by
  refine .of (P := op = op' ∧ Agrees a a' ∧ Agrees b b' ∧ True) ?_ ?_
  · rw [text_logical, text_logical]
    exact .heads eq_of_logicalHead fun _ => ha.append (closing_logicalMiddle.append _)
      (closing_logicalMiddle.append _)
      (.after _ (hb.append (closing_paren _) (closing_paren _) (.same _)))
  · rintro ⟨rfl, ha, hb, -⟩ hplaces start
    simp only [compile, ha.compile hplaces.children.head, hb.compile hplaces.children.tail.head,
      ha.width]

theorem told_coalesce (ha : Told a a') (hb : Told b b') :
    Told (coalesce span a b) (coalesce span' a' b') := by
  refine .of (P := Agrees a a' ∧ Agrees b b' ∧ True) ?_ ?_
  · rw [text_coalesce, text_coalesce]
    exact .cons '(' (ha.append (closing_cons (by decide) _) (closing_cons (by decide) _)
      (.after ['?', '?'] (hb.append (closing_paren _) (closing_paren _) (.same _))))
  · rintro ⟨ha, hb, -⟩ hplaces start
    simp only [compile, ha.compile hplaces.children.head, hb.compile hplaces.children.tail.head,
      ha.width]

theorem ne_text_of_other {s : List Char} (hs : ∀ r, Form.of (s ++ r) = .other)
    (ha : a.AllRegular) : Decides s a.text P :=
  .of_ne fun r r' heq => form_ne_other a ((form_text ha r').symm.trans (heq ▸ hs r))

theorem told_alternate {x x' : Option Expr} (hx : ∀ e ∈ x, e.AllRegular)
    (hx' : ∀ e ∈ x', e.AllRegular) (h : ∀ e ∈ x, ∀ e' ∈ x', Told e e') :
    Decides (alternateText x) (alternateText x') (AgreesOption x x') := by
  have hother (r : List Char) : Form.of ("undefined".toList ++ r) = .other := by
    have hhead : "undefined".toList = ['u', 'n'] ++ "defined".toList := by decide
    rw [hhead]
    rfl
  rcases x with _ | e <;> rcases x' with _ | e'
  · exact .same _
  · exact ne_text_of_other hother (hx' e' rfl)
  · exact (ne_text_of_other hother (hx e rfl)).symm
  · exact h e rfl e' rfl

theorem compileAlternate_eq {x x' : Option Expr} (h : AgreesOption x x')
    (hplaces : SamePlacesAll x.toList x'.toList) (start : Nat) :
    compileAlternate x start = compileAlternate x' start := by
  rcases x with _ | e <;> rcases x' with _ | e' <;> try exact h.elim
  · rfl
  · exact Agrees.compile h hplaces.head start

theorem told_conditional {x x' : Option Expr} (ha : Told a a') (hb : Told b b')
    (hx : Decides (alternateText x) (alternateText x') (AgreesOption x x')) :
    Told (conditional span a b x) (conditional span' a' b' x') := by
  refine .of (P := Agrees a a' ∧ Agrees b b' ∧ AgreesOption x x' ∧ True) ?_ ?_
  · rw [text_conditional, text_conditional]
    exact .after _ (ha.append (closing_conditionalThen.append _) (closing_conditionalThen.append _)
      (.after _ (hb.append (closing_cons (by decide) _) (closing_cons (by decide) _)
        (.cons ':' (hx.append (closing_paren _) (closing_paren _) (.same _))))))
  · rintro ⟨ha, hb, hx, -⟩ hplaces start
    have halternate := compileAlternate_eq hx hplaces.children.tail.tail
    simp only [compile, ha.compile hplaces.children.head, hb.compile hplaces.children.tail.head,
      halternate, ha.width, hb.width]

theorem decides_quoted (s s' : String) : Decides (quoted s) (quoted s') (s = s') :=
  (Decides.quote s.toList s'.toList).imp fun _ h => String.toList_inj.1 h

theorem decides_lookup (name name' : String) :
    Decides (Listing.lookup name) (Listing.lookup name') (name = name') := by
  unfold Listing.lookup
  rw [List.append_assoc, List.append_assoc]
  refine (Decides.after _ ((decides_quoted name name').append (closing_paren _) (closing_paren _)
    (.same _))).imp fun _ h => h.1

theorem opening_quoted (s : String) (r : List Char) : Opening (quoted s ++ r) :=
  ⟨'"', _, rfl, by decide⟩

theorem told_object {ps ps' : List (Property Expr)}
    (h : ∀ p ∈ ps, ∀ p' ∈ ps', Told p.value p'.value) :
    Told (object span ps) (object span' ps') := by
  have hproperty (p : Property Expr) (hp : p ∈ ps) (p' : Property Expr) (hp' : p' ∈ ps') :
      Decides (propertyText p) (propertyText p') (AgreesProperty p p') :=
    ((decides_quoted p.key.text p'.key.text).append (closing_cons (by decide) _)
      (closing_cons (by decide) _) (.cons ':' (h p hp p' hp'))).imp fun _ h => ⟨h.1, h.2⟩
  refine .of (P := List.Forall₂ AgreesProperty ps ps' ∧ True) ?_ ?_
  · rw [text_object, text_object]
    exact .cons '\x7b' (.row (by decide) (by decide) (fun p _ => opening_quoted _ _)
      (fun p _ => opening_quoted _ _) hproperty (.same _))
  · rintro ⟨hps, -⟩ hplaces start
    simp only [compile, compileProperties_eq hps hplaces.children]

theorem Opening.ne_append {s r r' : List Char} (hs : Opening s) (hr : Closes r) : r ≠ s ++ r' := by
  obtain ⟨c, cs, rfl, hc⟩ := hs
  rintro rfl
  exact hc (hr c rfl)

theorem decides_element {x x' : Option Expr} (hx : ∀ e ∈ x, e.AllRegular)
    (hx' : ∀ e ∈ x', e.AllRegular) (h : ∀ e ∈ x, ∀ e' ∈ x', Told e e') :
    Decides (elementText x) (elementText x') (AgreesOption x x') := by
  have hhole {e : Expr} (he : e.AllRegular) {P : Prop} : Decides [] e.text P :=
    fun r r' hr _ heq => absurd heq (Opening.ne_append (opening_text he.root) hr)
  rcases x with _ | e <;> rcases x' with _ | e'
  · exact .same _
  · exact hhole (hx' e' rfl)
  · exact (hhole (hx e rfl)).symm
  · exact h e rfl e' rfl

/-- A row that is not empty shows that it is not, unless it is one hole. -/
theorem decides_empty {xs : List (Option Expr)} (hxs : xs ≠ [])
    (hregular : ∀ e, some e ∈ xs → e.AllRegular) :
    Decides [']'] (commaJoin (xs.map elementText) ++ [']']) (xs = [none]) := by
  obtain ⟨x, xs, rfl⟩ := List.exists_cons_of_ne_nil hxs
  rcases x with _ | e
  · rcases xs with _ | ⟨y, ys⟩
    · exact (Decides.same _).imp fun _ _ => rfl
    · exact .of_ne fun r r' heq => absurd (List.cons.inj heq).1 (by decide)
  · refine .of_ne fun r r' heq => ?_
    have hopens := opening_text (hregular e List.mem_cons_self).root
    exact ((Decides.opening_row (f := elementText) (x := some e) hopens xs [']']).append r').ne
      (closing_cons (by decide) r) heq.symm

theorem told_array {es es' : List (Option Expr)} (hes : ∀ e, some e ∈ es → e.AllRegular)
    (hes' : ∀ e, some e ∈ es' → e.AllRegular)
    (h : ∀ e, some e ∈ es → ∀ e', some e' ∈ es' → Told e e') :
    Told (array span es) (array span' es') := by
  refine .of (P := List.Forall₂ AgreesOption es es' ∨ es = [] ∧ es' = [none] ∨
    es = [none] ∧ es' = []) ?_ ?_
  · rw [text_array, text_array]
    refine .cons '[' ?_
    rcases es with _ | ⟨x, xs⟩ <;> rcases es' with _ | ⟨x', xs'⟩
    · exact (Decides.same _).imp fun _ _ => .inl .nil
    · exact (decides_empty (List.cons_ne_nil x' xs') hes').imp fun _ h => .inr (.inl ⟨rfl, h⟩)
    · exact (decides_empty (List.cons_ne_nil x xs) hes).symm.imp fun _ h => .inr (.inr ⟨h, rfl⟩)
    · refine (Decides.row_cons (by decide) (by decide) (fun a ha b hb => ?_) (.same _)).imp
        fun _ h => .inl h.1
      exact decides_element (fun e he => hes e (he ▸ ha)) (fun e he => hes' e (he ▸ hb))
        fun e he e' he' => h e (he ▸ ha) e' (he' ▸ hb)
  · rintro (hes | ⟨rfl, rfl⟩ | ⟨rfl, rfl⟩) hplaces start
    · simp only [compile, compileElements_eq hes hplaces.children]
    · exact Bool.noConfusion hplaces.root.2
    · exact Bool.noConfusion hplaces.root.2

def isNumeric (c : Char) : Bool := c.isDigit || c == '.' || c == 'e' || c == '+' || c == '-'

theorem isNumeric_chars {t : NumberText} (h : t.Valid) : ∀ c ∈ t.chars, isNumeric c := by
  have hdigits {ds : List Char} (hds : ∀ c ∈ ds, c.isDigit) (c : Char) (hc : c ∈ ds) :
      isNumeric c := by
    simp only [isNumeric, hds c hc, Bool.true_or]
  intro c hc
  obtain ⟨whole, fraction, exponent⟩ := t
  rcases List.mem_append.1 hc with hc | hc
  · exact hdigits h.whole_isDigit c hc
  rcases List.mem_append.1 hc with hc | hc
  · rcases fraction with _ | ds
    · nomatch hc
    rcases List.mem_cons.1 hc with rfl | hc
    · rfl
    · exact hdigits (h.fraction_isDigit ds rfl) c hc
  · rcases exponent with _ | ⟨negative, ds⟩
    · nomatch hc
    rcases List.mem_cons.1 hc with rfl | hc
    · rfl
    rcases List.mem_cons.1 hc with rfl | hc
    · cases negative <;> rfl
    · exact hdigits (h.exponent_isDigit _ rfl) c hc

/-- Numbers are read up to the first character that belongs to none. -/
theorem decides_number {x y : Float} (hx : Binary64.isFinite x) (hy : Binary64.isFinite y)
    (hux : Binary64.Unsigned x) (huy : Binary64.Unsigned y) :
    Decides (Literal.number x).listing (Literal.number y).listing (x = y) := by
  have hchars {x : Float} (hx : Binary64.isFinite x) (hux : Binary64.Unsigned x) :
      ∀ c ∈ (NumberFormat.value.write x).toList, isNumeric c := by
    obtain ⟨t, ht, hwrite⟩ := NumberFormat.value_write_eq hx hux.isNegative
    rw [hwrite]
    exact isNumeric_chars ht
  rw [Literal.listing, Literal.listing, if_pos hx, if_pos hy]
  refine (Decides.run (f := isNumeric) (by decide) (hchars hx hux) (hchars hy huy)).imp
    fun heq _ => ?_
  exact NumberFormat.value_write_injective hx hy hux huy (String.toList_inj.1 heq)

theorem eq_of_not_isFinite {x y : Float} (hx : Binary64.isFinite x = false)
    (hy : Binary64.isFinite y = false) (hux : Binary64.Unsigned x) (huy : Binary64.Unsigned y) :
    x = y := by
  have hbits {x : Float} (hx : Binary64.isFinite x = false) (hux : Binary64.Unsigned x) :
      Binary64.magnitudeBits x = Binary64.infinityBits := by
    have hnan := hux.isNaN
    simp only [Binary64.isFinite, Binary64.isNaN, decide_eq_false_iff_not] at hx hnan
    omega
  exact Binary64.eq_of_magnitudeBits (hux.isNegative.trans huy.isNegative.symm)
    ((hbits hx hux).trans (hbits hy huy).symm)

theorem form_number_eq_null {x : Float} :
    (Literal.number x).form = .null ↔ Binary64.isFinite x = false := by
  rw [Literal.form]
  cases Binary64.isFinite x <;> decide

theorem listing_of_null {l : Literal} (h : l.form = .null) : l.listing = "null".toList := by
  rcases l with x | s | b | _
  · exact if_neg (Bool.eq_false_iff.1 (form_number_eq_null.1 h))
  · nomatch h
  · nomatch h
  · rfl

/-- Of the literals that are written as null each is told by whether it is a number. -/
theorem eq_of_null {l l' : Literal} (hl : (literal span l).Regular)
    (hl' : (literal span' l').Regular) (hform : l.form = .null) (hform' : l'.form = .null)
    (h : (literal span l).isUnbounded = (literal span' l').isUnbounded) : l = l' := by
  rcases l with x | s | b | _
  · rcases l' with y | t | c | _
    · exact congrArg _ (eq_of_not_isFinite (form_number_eq_null.1 hform)
        (form_number_eq_null.1 hform') hl hl')
    · nomatch hform'
    · nomatch hform'
    · simp [isUnbounded, form_number_eq_null.1 hform] at h
  · nomatch hform
  · nomatch hform
  · rcases l' with y | t | c | _
    · simp [isUnbounded, form_number_eq_null.1 hform'] at h
    · nomatch hform'
    · nomatch hform'
    · rfl

theorem decides_literal {l l' : Literal} (hl : (literal span l).Regular)
    (hl' : (literal span' l').Regular) (hform : l.form = l'.form) (hnull : l.form ≠ .null) :
    Decides l.listing l'.listing (l = l') := by
  have hfinite {x : Float} (h : (Literal.number x).form ≠ .null) : Binary64.isFinite x = true := by
    rwa [Ne, form_number_eq_null, Bool.not_eq_false] at h
  have hnumber {x : Float} (h : (Literal.number x).form ≠ .null) :
      (Literal.number x).form = .number := if_pos (hfinite h)
  rcases l with x | s | b | _
  · rcases l' with y | t | c | _
    · exact (decides_number (hfinite hnull) (hfinite (hform ▸ hnull)) hl hl').imp
        fun _ h => congrArg _ h
    all_goals exact absurd ((hnumber hnull).symm.trans hform) Form.noConfusion
  · rcases l' with y | t | c | _
    · exact absurd ((hnumber (hform ▸ hnull)).symm.trans hform.symm) Form.noConfusion
    · exact (decides_quoted s t).imp fun _ h => congrArg _ h
    all_goals nomatch hform
  · rcases l' with y | t | c | _
    · exact absurd ((hnumber (hform ▸ hnull)).symm.trans hform.symm) Form.noConfusion
    · nomatch hform
    · obtain rfl : b = c := Form.boolean.inj hform
      exact (Decides.same _).imp fun _ _ => rfl
    · nomatch hform
  · exact absurd rfl hnull

theorem told_literal {l l' : Literal} (hl : (literal span l).Regular)
    (hl' : (literal span' l').Regular) (hform : l.form = l'.form) :
    Told (literal span l) (literal span' l') := by
  refine .of (P := l.form = .null ∨ l = l') ?_ ?_
  · rw [text_literal, text_literal]
    by_cases hnull : l.form = .null
    · rw [listing_of_null hnull, listing_of_null (hform ▸ hnull)]
      exact (Decides.same _).imp fun _ _ => .inl hnull
    · exact (decides_literal hl hl' hform hnull).imp fun _ h => .inr h
  · rintro (hnull | rfl) hplaces start
    · rw [eq_of_null hl hl' hnull (hform ▸ hnull) hplaces.root.1]
      rfl
    · rfl

/-- What a member access compiles its key to. -/
def keyCode (computed : Bool) (key : Expr) (start : Nat) : Code :=
  if computed then key.compile start else key.plainKey

/-- A computed key that is written like a name is the name as a string. -/
theorem decides_plainKey (name : String) (ha : a.AllRegular) :
    Decides (quoted name) a.text (∀ start, a.compile start = .constant (.string name)) := by
  intro r r' hr hr' heq
  have hform : a.form = .string := (form_text ha r').symm.trans (heq ▸ rfl)
  have hkind : a.kind = .null := (kind_form a).symm.trans (congrArg Form.kind hform)
  cases a with
  | literal span l =>
    rcases l with x | s | b | _
    · rcases hfinite : Binary64.isFinite x <;> simp [form, Literal.form, hfinite] at hform
    · rw [text_literal] at heq ⊢
      obtain ⟨htext, rfl⟩ := decides_quoted name s r r' hr hr' heq
      exact ⟨htext, fun start => rfl⟩
    · exact Form.noConfusion hform
    · exact Form.noConfusion hform
  | _ => exact Form.noConfusion hkind

theorem decides_key {computed computed' : Bool} {key key' : Expr} {e e' : Bool}
    (ha : (member span a key computed e).AllRegular)
    (ha' : (member span' a' key' computed' e').AllRegular) (h : Told key key') :
    Decides (keyText computed key) (keyText computed' key') (SamePlaces key key' →
      ∀ start, keyCode computed key start = keyCode computed' key' start) := by
  have hkey : key.AllRegular := ha.child (by simp [children])
  have hkey' : key'.AllRegular := ha'.child (by simp [children])
  have hplain (span : Span) (name : String) :
      keyText false (.identifier span name) = quoted name := List.append_nil _
  cases computed <;> cases computed'
  · obtain ⟨s, name, rfl⟩ := ha.root
    obtain ⟨s', name', rfl⟩ := ha'.root
    rw [hplain, hplain]
    exact (decides_quoted name name').imp fun _ hname _ _ => by rw [hname]; rfl
  · obtain ⟨s, name, rfl⟩ := ha.root
    rw [hplain]
    exact (decides_plainKey name hkey').imp fun _ hcode _ start => (hcode start).symm
  · obtain ⟨s', name', rfl⟩ := ha'.root
    rw [hplain]
    exact (decides_plainKey name' hkey).symm.imp fun _ hcode _ start => hcode start
  · exact h.imp fun _ hagrees => hagrees.compile

theorem told_member {computed computed' extended extended' : Bool} {key key' : Expr}
    (ha : Told a a')
    (hkey : Decides (keyText computed key) (keyText computed' key')
      (SamePlaces key key' → ∀ start, keyCode computed key start = keyCode computed' key' start)) :
    Told (member span a key computed extended) (member span' a' key' computed' extended') := by
  refine .of (P := Agrees a a' ∧ (SamePlaces key key' → ∀ start,
    keyCode computed key start = keyCode computed' key' start) ∧ True) ?_ ?_
  · rw [text_member, text_member]
    exact .after _ (ha.append (closing_comma _) (closing_comma _)
      (.cons ',' (hkey.append (closing_paren _) (closing_paren _) (.same _))))
  · rintro ⟨ha, hkey, -⟩ hplaces start
    have hkey := hkey hplaces.children.tail.head
    simp only [keyCode] at hkey
    simp only [compile, ha.compile hplaces.children.head, ha.width, hkey]

theorem decides_numbered (letter : Char) (i j : Nat) :
    Decides (numbered letter i) (numbered letter j) True :=
  .cons letter (.run (f := Char.isDigit) (by decide) (fun _ hc => isDigit_of_mem_toString hc)
    fun _ hc => isDigit_of_mem_toString hc)

theorem opening_numbered {letter : Char} (h : letter ∉ closers) (i : Nat) :
    Opening (numbered letter i) :=
  ⟨letter, _, rfl, h⟩

theorem opening_argument {x : Argument Expr × Nat} (hx : ∀ e ∈ x.1.value?, e.AllRegular) :
    Opening (argumentText x) := by
  obtain ⟨e | place, i⟩ := x
  · exact opening_text (hx e rfl).root
  · exact opening_numbered (by decide) i

theorem told_argument {x x' : Argument Expr × Nat} (hx : ∀ e ∈ x.1.value?, e.AllRegular)
    (hx' : ∀ e ∈ x'.1.value?, e.AllRegular)
    (h : ∀ e ∈ x.1.value?, ∀ e' ∈ x'.1.value?, Told e e') :
    Decides (argumentText x) (argumentText x') (AgreesArgument x x') := by
  have hplaceholder (i : Nat) (r : List Char) : Form.of (numbered 'a' i ++ r) = .other := rfl
  obtain ⟨e | place, i⟩ := x <;> obtain ⟨e' | place', i'⟩ := x'
  · exact h e rfl e' rfl
  · exact (ne_text_of_other (hplaceholder i') (hx e rfl)).symm
  · exact ne_text_of_other (hplaceholder i) (hx' e' rfl)
  · exact decides_numbered 'a' i i'

end Expr

end ExprLang
