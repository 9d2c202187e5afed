import ExprLang.Expression
import ExprLang.Proofs.Documents.Decoding

/-!
Trees handed over as text. A tree arrives with its numbers as they are read, unless its text nests
too deeply or a number cannot be read; compilation then goes on from what has arrived.
-/
namespace ExprLang

namespace Expr

variable {e : Expr}

theorem gives_read? (hspans : ∀ s ∈ e.spans, s.FitsWord) :
    Gives (read? e.toJson.compact)
      (e.toJson.nesting ≤ Json.nestingLimit ∧ ∀ x ∈ e.numbers, (readBack? x).isSome)
      (e.mapNumbers readBack) := by
  have hreads := reads_toJson e hspans
  have hnesting := Json.nesting_reread _ hreads.written
  rw [hreads.reread] at hnesting
  rw [read?, read?_compact hspans, Option.bind_some, ofJson?, ← hnesting]
  exact decodes_tree e hspans _ _ (Nat.lt_succ_self _)

/-- A tree whose finite numbers are read as themselves comes back as it is, or not at all. -/
theorem read?_compact_eq_some_iff {e' : Expr} (hspans : ∀ s ∈ e.spans, s.FitsWord)
    (hnumbers : ∀ x ∈ e.numbers, Binary64.isFinite x = true → readBack? x = some x) :
    read? e.toJson.compact = some e' ↔
      ((∀ x ∈ e.numbers, Binary64.isFinite x = true) ∧ e.toJson.nesting ≤ Json.nestingLimit) ∧
        e' = e := by
  have hfinite : ∀ x ∈ e.numbers, (readBack? x).isSome → Binary64.isFinite x = true := by
    intro x _ hsome
    rw [← Bool.not_eq_false]
    intro hinfinite
    rw [readBack?_eq_none hinfinite] at hsome
    cases hsome
  rw [gives_read? hspans e']
  constructor
  · rintro ⟨⟨hnesting, hread⟩, rfl⟩
    have hall : ∀ x ∈ e.numbers, Binary64.isFinite x = true := fun x hx => hfinite x hx (hread x hx)
    refine ⟨⟨hall, hnesting⟩, mapNumbers_eq_self e fun x hx => ?_⟩
    rw [readBack, hnumbers x hx (hall x hx), Option.getD_some]
  · rintro ⟨⟨hall, hnesting⟩, rfl⟩
    have hread : ∀ x ∈ e'.numbers, readBack? x = some x :=
      fun x hx => hnumbers x hx (hall x hx)
    refine ⟨⟨hnesting, fun x hx => ?_⟩, (mapNumbers_eq_self e' fun x hx => ?_).symm⟩
    · rw [hread x hx, Option.isSome_some]
    · rw [readBack, hread x hx, Option.getD_some]

def sumText : String := "2.5 + x"

def sumTree : Expr :=
  .binary ⟨⟨0, 1, 1⟩, ⟨7, 1, 8⟩⟩ .add (.literal ⟨⟨0, 1, 1⟩, ⟨3, 1, 4⟩⟩ (.number 2.5))
    (.identifier ⟨⟨6, 1, 7⟩, ⟨7, 1, 8⟩⟩ "x")

theorem readBack?_sumTree : ∀ x ∈ sumTree.numbers, readBack? x = some x := by
  intro x hx
  obtain rfl : x = 2.5 := List.mem_singleton.1 hx
  rfl

theorem read?_compact_sumTree :
    (∀ s ∈ sumTree.spans, s.FitsWord) ∧
      (∀ x ∈ sumTree.numbers, Binary64.isFinite x = true → readBack? x = some x) ∧
      read? sumTree.toJson.compact = some sumTree := by
  have hspans : ∀ s ∈ sumTree.spans, s.FitsWord := by decide
  have hnumbers : ∀ x ∈ sumTree.numbers, Binary64.isFinite x = true → readBack? x = some x :=
    fun x hx _ => readBack?_sumTree x hx
  have hfinite : ∀ x ∈ sumTree.numbers, Binary64.isFinite x = true := by
    intro x hx
    obtain rfl : x = 2.5 := List.mem_singleton.1 hx
    decide +kernel
  have hnesting : sumTree.toJson.nesting ≤ Json.nestingLimit := by decide
  exact ⟨hspans, hnumbers,
    (read?_compact_eq_some_iff hspans hnumbers).2 ⟨⟨hfinite, hnesting⟩, rfl⟩⟩

end Expr

namespace Expression

variable {source : String} {options : Options} {e : Expr}

theorem compile_of_parse (hparse : Expr.parse source = .ok e) :
    compile source options = ofTree e source options := by
  rw [compile, hparse]

theorem ofTreeText_of_read (hparse : Expr.parse source = .ok e)
    (hspans : ∀ s ∈ e.spans, s.FitsWord) (hnesting : e.toJson.nesting ≤ Json.nestingLimit)
    (hnumbers : ∀ x ∈ e.numbers, readBack? x = some x) :
    ofTreeText e.toJson.compact source options = compile source options := by
  have hself : e.mapNumbers readBack = e := by
    refine Expr.mapNumbers_eq_self e fun x hx => ?_
    rw [readBack, hnumbers x hx, Option.getD_some]
  have hread : Expr.read? e.toJson.compact = some e := by
    refine (Expr.gives_read? hspans e).2 ⟨⟨hnesting, fun x hx => ?_⟩, hself.symm⟩
    rw [hnumbers x hx, Option.isSome_some]
  rw [ofTreeText, hread, compile_of_parse hparse]

theorem ofTreeText_of_lost (hspans : ∀ s ∈ e.spans, s.FitsWord)
    (hlost : Json.nestingLimit < e.toJson.nesting ∨
      ∃ x ∈ e.numbers, Binary64.isFinite x = false) :
    ofTreeText e.toJson.compact source options = .error .malformed := by
  have hread : Expr.read? e.toJson.compact = none := by
    rw [Option.eq_none_iff_forall_ne_some]
    intro e' he'
    obtain ⟨⟨hnesting, hsome⟩, -⟩ := (Expr.gives_read? hspans e').1 he'
    rcases hlost with hdeep | ⟨x, hx, hinfinite⟩
    · exact absurd hnesting (Nat.not_le.2 hdeep)
    · have hx' := hsome x hx
      rw [readBack?_eq_none hinfinite] at hx'
      cases hx'
  rw [ofTreeText, hread]

/-- Handing over the tree of a text as JSON agrees with compiling the text as long as the JSON text
nests no deeper than its reader goes and every number is read as itself. -/
theorem ofTreeText_compact (hparse : Expr.parse source = .ok e)
    (hspans : ∀ s ∈ e.spans, s.FitsWord) :
    (e.toJson.nesting ≤ Json.nestingLimit → (∀ x ∈ e.numbers, readBack? x = some x) →
      ofTreeText e.toJson.compact source options = compile source options) ∧
    (Json.nestingLimit < e.toJson.nesting ∨ (∃ x ∈ e.numbers, Binary64.isFinite x = false) →
      ofTreeText e.toJson.compact source options = .error .malformed) :=
  ⟨ofTreeText_of_read hparse hspans, ofTreeText_of_lost hspans⟩

theorem ofTreeText_compact_sum :
    Expr.parse Expr.sumText = .ok Expr.sumTree ∧
      ofTreeText Expr.sumTree.toJson.compact Expr.sumText .standard =
        compile Expr.sumText .standard := by
  have hparse : Expr.parse Expr.sumText = .ok Expr.sumTree := by with_unfolding_all rfl
  have hspans : ∀ s ∈ Expr.sumTree.spans, s.FitsWord := by decide
  exact ⟨hparse, (ofTreeText_compact hparse hspans).1 (by decide) Expr.readBack?_sumTree⟩

def negations : String := "-------------------------------------------x"

/-- A text of which every level takes three levels of JSON. -/
theorem negations_lost : ∃ e x, Expr.parse negations = .ok e ∧ compile negations .standard = .ok x ∧
    ofTreeText e.toJson.compact negations .standard = .error .malformed := by
  have h : ((Expr.parse negations).toOption.any fun e => decide ((∀ s ∈ e.spans, s.FitsWord) ∧
      Json.nestingLimit < e.toJson.nesting ∧ e.rejection? = none)) = true := by decide +kernel
  cases hparse : Expr.parse negations with
  | error log =>
    rw [hparse] at h
    cases h
  | ok e =>
    rw [hparse] at h
    obtain ⟨hspans, hdeep, haccepted⟩ := of_decide_eq_true h
    have hcompile : ofTree e negations .standard =
        .ok ⟨negations, e.layout, e.compile 0, .standard⟩ := by
      rw [ofTree, haccepted]
    exact ⟨e, _, rfl, (compile_of_parse hparse).trans hcompile,
      ofTreeText_of_lost hspans (.inl hdeep)⟩

end Expression

end ExprLang
