import ExprLang.Listing
import ExprLang.Proofs.Documents.Texts
import ExprLang.Proofs.Lexing.Numbers

/-!
Texts that tell where they end. A part of a listing is read off what begins with it: of two parts
before whatever may follow them, one cannot go on where the other has ended.
-/
namespace ExprLang

/-- What may stand right behind the text of a tree in a listing. -/
def closers : List Char := [',', ')', '?', ':', '\x7d', ']']

/-- Nothing follows, or a closer. -/
def Closes (r : List Char) : Prop := ∀ c ∈ r.head?, c ∈ closers

/-- Texts that begin with a closer. -/
def Closing (s : List Char) : Prop := ∃ c cs, s = c :: cs ∧ c ∈ closers

/-- Texts that begin with what is no closer. -/
def Opening (s : List Char) : Prop := ∃ c cs, s = c :: cs ∧ c ∉ closers

/-- If the two texts begin alike, whatever follows, then they are the same, and so it is. -/
def Decides (p q : List Char) (P : Prop) : Prop :=
  ∀ r r', Closes r → Closes r' → p ++ r = q ++ r' → p = q ∧ P

theorem closing_cons {c : Char} (hc : c ∈ closers) (cs : List Char) : Closing (c :: cs) :=
  ⟨c, cs, rfl, hc⟩

theorem closing_of_head? {s : List Char} {c : Char} (hs : s.head? = some c) (hc : c ∈ closers) :
    Closing s := by
  obtain ⟨cs, rfl⟩ := List.head?_eq_some_iff.1 hs
  exact closing_cons hc cs

theorem Closing.append {s : List Char} (h : Closing s) (r : List Char) : Closing (s ++ r) := by
  obtain ⟨c, cs, rfl, hc⟩ := h
  exact ⟨c, cs ++ r, rfl, hc⟩

theorem Closing.closes {s : List Char} (h : Closing s) : Closes s := by
  obtain ⟨c, cs, rfl, hc⟩ := h
  rintro d ⟨⟩
  exact hc

theorem Opening.append {s : List Char} (h : Opening s) (r : List Char) : Opening (s ++ r) := by
  obtain ⟨c, cs, rfl, hc⟩ := h
  exact ⟨c, cs ++ r, rfl, hc⟩

theorem Opening.ne {s t : List Char} (h : Opening s) (ht : Closing t) : s ≠ t := by
  obtain ⟨c, cs, rfl, hc⟩ := h
  obtain ⟨d, ds, rfl, hd⟩ := ht
  rintro heq
  rw [(List.cons.inj heq).1] at hc
  exact hc hd

namespace Decides

variable {α ι : Type} {p q s t : List Char} {P Q : Prop}

theorem imp (h : Decides p q P) (hPQ : p = q → P → Q) : Decides p q Q := fun r r' hr hr' heq =>
  let ⟨hpq, hP⟩ := h r r' hr hr' heq
  ⟨hpq, hPQ hpq hP⟩

theorem same (p : List Char) : Decides p p True := fun _ _ _ _ _ => ⟨rfl, trivial⟩

theorem after (h : List Char) (hpq : Decides p q P) : Decides (h ++ p) (h ++ q) P := by
  intro r r' hr hr' heq
  rw [List.append_assoc, List.append_assoc] at heq
  obtain ⟨rfl, hP⟩ := hpq r r' hr hr' (List.append_cancel_left heq)
  exact ⟨rfl, hP⟩

theorem cons (c : Char) (hpq : Decides p q P) : Decides (c :: p) (c :: q) P := after [c] hpq

theorem append (hpq : Decides p q P) (hs : Closing s) (ht : Closing t) (hst : Decides s t Q) :
    Decides (p ++ s) (q ++ t) (P ∧ Q) := by
  intro r r' hr hr' heq
  rw [List.append_assoc, List.append_assoc] at heq
  obtain ⟨rfl, hP⟩ := hpq _ _ (hs.append r).closes (ht.append r').closes heq
  obtain ⟨rfl, hQ⟩ := hst r r' hr hr' (List.append_cancel_left heq)
  exact ⟨rfl, hP, hQ⟩

theorem of_ne (h : ∀ r r', p ++ r ≠ q ++ r') : Decides p q P :=
  fun r r' _ _ heq => absurd heq (h r r')

theorem symm (h : Decides p q P) : Decides q p P := fun r r' hr hr' heq =>
  let ⟨hpq, hP⟩ := h r' r hr' hr heq.symm
  ⟨hpq.symm, hP⟩

/-- Heads of which none begins with another. -/
theorem heads {head : ι → List Char} (hhead : ∀ i j, head i <+: head j → i = j) {i j : ι}
    (h : i = j → Decides p q P) : Decides (head i ++ p) (head j ++ q) (i = j ∧ P) := by
  intro r r' hr hr' heq
  have hij : i = j := by
    rw [List.append_assoc, List.append_assoc] at heq
    rcases List.append_eq_append_iff.1 heq with ⟨as, has, -⟩ | ⟨as, has, -⟩
    · exact hhead i j ⟨as, has.symm⟩
    · exact (hhead j i ⟨as, has.symm⟩).symm
  subst hij
  obtain ⟨hpq, hP⟩ := after (head i) (h rfl) r r' hr hr' heq
  exact ⟨hpq, rfl, hP⟩

/-- Characters of a kind up to one that is not. -/
theorem run {f : Char → Bool} (hf : (closers.all fun c => !f c) = true) (hp : ∀ c ∈ p, f c)
    (hq : ∀ c ∈ q, f c) : Decides p q True := by
  intro r r' hr hr' heq
  have hstop : ∀ c ∈ closers, f c = false := fun c hc =>
    Bool.not_eq_true' _ ▸ List.all_eq_true.1 hf c hc
  have htake := congrArg (List.takeWhile f) heq
  rw [takeWhile_append_stop hp fun c hc => hstop c (hr c hc),
    takeWhile_append_stop hq fun c hc => hstop c (hr' c hc)] at htake
  exact ⟨htake, trivial⟩

theorem quote (cs ds : List Char) : Decides (Text.quote cs) (Text.quote ds) (cs = ds) := by
  intro r r' _ _ heq
  obtain ⟨n, hn⟩ : ∃ n, cs.length < n ∧ ds.length < n :=
    ⟨max cs.length ds.length + 1, by omega, by omega⟩
  have hcs := Json.readChars_quoted hn.1 r
  have hds := Json.readChars_quoted hn.2 r'
  have hbody : cs.flatMap Text.quoteChar ++ '"' :: r = ds.flatMap Text.quoteChar ++ '"' :: r' := by
    simpa [Text.quote] using heq
  rw [hbody, hds] at hcs
  obtain ⟨hsame, -⟩ := Prod.mk.inj (Option.some.inj hcs)
  obtain rfl := Option.some.inj hsame
  exact ⟨rfl, rfl⟩

section Rows

open Listing (commaJoin)

@[simp] theorem commaJoin_nil : commaJoin [] = [] := rfl

@[simp] theorem commaJoin_singleton (x : List Char) : commaJoin [x] = x := List.append_nil x

@[simp] theorem commaJoin_cons_cons (x y : List Char) (xs : List (List Char)) :
    commaJoin (x :: y :: xs) = x ++ ',' :: commaJoin (y :: xs) := rfl

variable {f : α → List Char} {R : α → α → Prop} {xs ys : List α} {c : Char}

/-- Behind one of two items that are the same the row ends, behind the other it goes on. -/
theorem of_ends {x y : List Char} {R : Prop} (hc : c ∈ closers) (hcomma : c ≠ ',')
    (h : Decides x y R) : Decides (x ++ c :: p) (y ++ ',' :: q) P := by
  intro r r' hr hr' heq
  rw [List.append_assoc, List.append_assoc] at heq
  have hcloses (d : Char) (ds : List Char) (hd : d ∈ closers) : Closes (d :: ds) :=
    Closing.closes ⟨d, ds, rfl, hd⟩
  obtain ⟨rfl, -⟩ := h _ _ (hcloses c _ hc) (hcloses ',' _ List.mem_cons_self) heq
  exact absurd (List.cons.inj (List.append_cancel_left heq)).1 hcomma

theorem row_cons {x y : α} (hc : c ∈ closers) (hcomma : c ≠ ',')
    (h : ∀ a ∈ x :: xs, ∀ b ∈ y :: ys, Decides (f a) (f b) (R a b)) (hpq : Decides p q P) :
    Decides (commaJoin ((x :: xs).map f) ++ c :: p) (commaJoin ((y :: ys).map f) ++ c :: q)
      (List.Forall₂ R (x :: xs) (y :: ys) ∧ P) := by
  have hxy := h x List.mem_cons_self y List.mem_cons_self
  induction xs generalizing x y ys with
  | nil =>
    cases ys with
    | nil =>
      simp only [List.map_cons, List.map_nil, commaJoin_singleton]
      refine (hxy.append ⟨c, p, rfl, hc⟩ ⟨c, q, rfl, hc⟩ (hpq.cons c)).imp fun _ hR => ?_
      exact ⟨.cons hR.1 .nil, hR.2⟩
    | cons y' ys =>
      simp only [List.map_cons, List.map_nil, commaJoin_singleton, commaJoin_cons_cons,
        List.append_assoc, List.cons_append]
      exact of_ends hc hcomma hxy
  | cons x' xs ih =>
    cases ys with
    | nil =>
      simp only [List.map_cons, List.map_nil, commaJoin_singleton, commaJoin_cons_cons,
        List.append_assoc, List.cons_append]
      exact (of_ends hc hcomma hxy.symm).symm
    | cons y' ys =>
      have hrest := ih (fun a ha b hb => h a (List.mem_cons_of_mem x ha) b
        (List.mem_cons_of_mem y hb)) (h x' (by simp) y' (by simp))
      simp only [List.map_cons, commaJoin_cons_cons, List.append_assoc, List.cons_append]
        at hrest ⊢
      refine (hxy.append ⟨',', _, rfl, List.mem_cons_self⟩ ⟨',', _, rfl, List.mem_cons_self⟩
        (hrest.cons ',')).imp fun _ hR => ?_
      exact ⟨.cons hR.1 hR.2.1, hR.2.2⟩

theorem opening_row {x : α} (h : Opening (f x)) (xs : List α) (s : List Char) :
    Opening (commaJoin ((x :: xs).map f) ++ s) := by
  cases xs <;> simp only [List.map_cons, List.map_nil, commaJoin_singleton, commaJoin_cons_cons,
    List.append_assoc, h.append]

/-- Rows of items of which each shows that it is one. -/
theorem row (hc : c ∈ closers) (hcomma : c ≠ ',') (hxs : ∀ x ∈ xs, Opening (f x))
    (hys : ∀ y ∈ ys, Opening (f y)) (h : ∀ x ∈ xs, ∀ y ∈ ys, Decides (f x) (f y) (R x y))
    (hpq : Decides p q P) :
    Decides (commaJoin (xs.map f) ++ c :: p) (commaJoin (ys.map f) ++ c :: q)
      (List.Forall₂ R xs ys ∧ P) := by
  cases xs with
  | nil =>
    cases ys with
    | nil => exact (hpq.cons c).imp fun _ hP => ⟨.nil, hP⟩
    | cons y ys =>
      refine of_ne fun r r' heq => ?_
      exact ((opening_row (hys y List.mem_cons_self) ys (c :: q)).append r').ne
        ⟨c, p ++ r, rfl, hc⟩ heq.symm
  | cons x xs =>
    cases ys with
    | nil =>
      refine of_ne fun r r' heq => ?_
      exact ((opening_row (hxs x List.mem_cons_self) xs (c :: p)).append r).ne
        ⟨c, q ++ r', rfl, hc⟩ heq
    | cons y ys => exact row_cons hc hcomma h hpq

end Rows

end Decides

end ExprLang
