import ExprLang.Proofs.Parsing.Spelling
import Mathlib.Data.List.Forall2

/-!
Lists as they are taken, one item after another. What a comma is for shows only behind it: between
two items it is a part, behind the last one it leaves no trace, and behind a hole it is the hole.
-/
namespace ExprLang

open Parse

variable {α β : Type}

/-- Items each of which has a comma behind it. -/
inductive Punctuated : List (List Sign) → List Sign → Prop
  | nil : Punctuated [] []
  | concat {uss : List (List Sign)} {ts us : List Sign} (h : Punctuated uss ts) (a : Span) :
    Punctuated (uss ++ [us]) (ts ++ us ++ [.symbol .comma a])

theorem Punctuated.listed_append {uss wss : List (List Sign)} {ts vs : List Sign}
    (h : Punctuated uss ts) (hlisted : Listed wss vs) (hne : wss ≠ []) :
    Listed (uss ++ wss) (ts ++ vs) := by
  induction h generalizing wss vs with
  | nil => exact hlisted
  | @concat uss ts us _ a ih =>
    have hmore : Listed (uss ++ us :: wss) (ts ++ (us ++ [.symbol .comma a] ++ vs)) :=
      ih (.more a hlisted hne) (List.cons_ne_nil _ _)
    simpa only [List.append_assoc, List.singleton_append] using hmore

/-- The last comma is what it is behind a last item. -/
theorem Punctuated.exists_listed {uss : List (List Sign)} {ts : List Sign} (h : Punctuated uss ts) :
    ∃ vs, ts.map (·.token) = vs.map (·.token) ∧ Listed uss vs := by
  cases h with
  | nil => exact ⟨[], rfl, .nil⟩
  | @concat uss ts us h a =>
    by_cases hus : us = []
    · subst hus
      exact ⟨ts ++ [.symbol .comma a], by simp, h.listed_append (.hole a) (List.cons_ne_nil _ _)⟩
    · refine ⟨ts ++ (us ++ [⟨⟨.symbol .comma, a⟩, .trailing⟩]), ?_,
        h.listed_append (.trailing hus a) (List.cons_ne_nil _ _)⟩
      simp [Sign.part]

namespace Clause

def SpellsArgument (x : Clause (Argument Expr)) : Prop :=
  x.IsArgument ∧ ∀ e, x.value = .value e → Spells x.body e

def SpellsElement (x : Clause (Option Expr)) : Prop :=
  x.IsElement ∧ ∀ e, x.value = some e → Spells x.body e

def SpellsProperty (x : Clause (Property Expr)) : Prop := x.IsProperty ∧ Spells x.body x.value.value

def SpellsStage (x : Clause (Stage Expr)) : Prop := x.IsStage ∧ Spells x.body x.value.body

def SpellsDeclaration (x : Clause (Declaration Expr)) : Prop :=
  x.IsDeclaration ∧ Spells x.body x.value.init

/-- The tokens of a clause and what it holds. -/
def Holds (P : Clause α → Prop) (us : List Sign) (x : α) : Prop :=
  ∃ c, P c ∧ c.signs = us ∧ c.value = x

end Clause

/-- The clauses that items are read from. -/
theorem exists_clauses {P : Clause α → Prop} {uss : List (List Sign)} {xs : List α}
    (h : List.Forall₂ (Clause.Holds P) uss xs) :
    ∃ cs : List (Clause α), (∀ x ∈ cs, P x) ∧ cs.map (·.signs) = uss ∧ cs.map (·.value) = xs := by
  induction h with
  | nil => exact ⟨[], List.forall_mem_nil _, rfl, rfl⟩
  | cons h _ ih =>
    obtain ⟨x, hx, rfl, rfl⟩ := h
    obtain ⟨cs, hcs, rfl, rfl⟩ := ih
    exact ⟨x :: cs, List.forall_mem_cons.2 ⟨hx, hcs⟩, rfl, rfl⟩

/-- Clauses that are taken one after another, behind other tokens. -/
def Cursor.TakesClauses (c : Cursor) (us : List Sign) (P : Clause α → Prop) (xs : List α)
    (d : Cursor) : Prop :=
  ∃ cs : List (Clause α), cs.map (·.value) = xs ∧ (∀ x ∈ cs, P x) ∧
    c.Takes (us ++ cs.flatMap (·.signs)) d

section Clauses

variable {c d e : Cursor} {us : List Sign} {P : Clause α → Prop}

theorem Cursor.takesClauses_nil (h : c.Takes us d) : c.TakesClauses us P [] d :=
  ⟨[], rfl, List.forall_mem_nil _, by simpa using h⟩

theorem Cursor.takesClauses_concat {cs : List (Clause α)} {x : Clause α} (hcs : ∀ x ∈ cs, P x)
    (hx : P x) (hne : x.signs ≠ []) (h : c.Takes (us ++ cs.flatMap (·.signs)) d)
    (h' : c.Takes (us ++ cs.flatMap (·.signs) ++ x.signs) e) :
    c.TakesClauses us P (cs.map (·.value) ++ [x.value]) e ∧ e.rest.length < d.rest.length := by
  refine ⟨⟨cs ++ [x], List.map_append, ?_, by simpa using h'⟩, h.length_lt_of h' ?_⟩
  · simpa [or_imp, forall_and] using ⟨hcs, hx⟩
  · simpa using List.length_pos_iff.2 hne

end Clauses

section Items

variable (S : List Sign → α → Prop) (c : Cursor)

/-- Items that are taken with a comma behind each. -/
def Cursor.TakesItems (xs : List α) (d : Cursor) : Prop :=
  ∃ uss ts, List.Forall₂ S uss xs ∧ Punctuated uss ts ∧ c.Takes ts d

/-- Items that are taken with commas between them. -/
def Cursor.TakesList (xs : List α) (d : Cursor) : Prop :=
  ∃ uss vs, List.Forall₂ S uss xs ∧ Listed uss vs ∧ c.Takes vs d

variable {S c} {d : Cursor} {xs : List α}

theorem Cursor.takesItems_nil : c.TakesItems S [] c := ⟨[], [], .nil, .nil, .refl c⟩

theorem Cursor.TakesItems.list (h : c.TakesItems S xs d) : c.TakesList S xs d := by
  obtain ⟨uss, ts, hitems, hpunctuated, htakes⟩ := h
  obtain ⟨vs, htokens, hlisted⟩ := hpunctuated.exists_listed
  exact ⟨uss, vs, hitems, hlisted, htakes.congr htokens⟩

/-- One more item, with a comma behind it or as the last one. -/
theorem Cursor.TakesItems.ensures_item (h : c.TakesItems S xs d) {T : List Sign → β → Prop}
    {item : Parse β} (hitem : Makes T item) {f : β → α}
    (hT : ∀ us b, T us b → S us (f b) ∧ us ≠ []) : Ensures
      (do
        let b ← item
        if ← eat (.symbol .comma) then return Progress.more (xs ++ [f b])
        else return Progress.done (xs ++ [f b]))
      (fun r e => r.Either (fun xs => c.TakesItems S xs e ∧ e.rest.length < d.rest.length)
        fun xs => c.TakesList S xs e) d := by
  obtain ⟨uss, ts, hitems, hpunctuated, htakes⟩ := h
  refine .bind <| .take hitem htakes fun b e us hb hus => .bind ?_
  obtain ⟨hS, hne⟩ := hT us b hb
  have hitems' : List.Forall₂ S (uss ++ [us]) (xs ++ [f b]) :=
    List.rel_append hitems (.cons hS .nil)
  refine .eat TokenKind.noConfusion hus .part (fun e' a ha => .pure ?_) fun _ => .pure ?_
  · exact ⟨⟨_, _, hitems', .concat hpunctuated a, ha⟩, htakes.length_lt_of ha (by simp)⟩
  · exact ⟨_, _, hitems', hpunctuated.listed_append (.last hne) (List.cons_ne_nil _ _), hus⟩

end Items

end ExprLang
