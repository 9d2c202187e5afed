import ExprLang.Proofs.Doubles.Signs
import ExprLang.Proofs.Lexing.Pieces
import ExprLang.Proofs.Nesting
import ExprLang.Proofs.Parsing.Names

/-!
What holds of every node of a parsed tree. A number literal has no sign, no variable is called like
the topic, and an access that is not computed names its property.
-/
namespace ExprLang

open Binary64 (Unsigned)

def TokenKind.Regular : TokenKind → Prop
  | .number x => Unsigned x
  | .identifier name => name ≠ topicName
  | _ => True

namespace NumberLiteral

theorem unsigned_scan {cs : List Char} {x : Float} (h : (scan cs).value = some x) : Unsigned x := by
  have hhex : ∀ mark cs, (scanHex mark cs).value = some x → Unsigned x := by
    intro mark cs h
    simp only [scanHex] at h
    split at h <;> cases h
    exact Reading.unsigned_radixValue (.inr (.inr rfl)) _
  unfold scan at h
  split at h
  · exact hhex _ _ h
  · exact hhex _ _ h
  · simp only [scanDecimal] at h
    split at h
    · cases h
    · obtain ⟨e, -, rfl⟩ := Option.map_eq_some_iff.1 h
      exact Reading.unsigned_toFloat rfl

end NumberLiteral

namespace Lexer

theorem regular_scanToken {p : Position} {c : Char} {cs : List Char} {s : Scanned}
    (h : scanToken p c cs = some s) (hclean : s.findings = []) : s.kind.Regular := by
  have htopic := notTopic_scanToken h
  unfold scanToken at h
  split at h
  · cases h
    trivial
  split at h
  · cases h
    obtain ⟨x, hx⟩ : ∃ x, (NumberLiteral.scan (c :: cs)).value = some x := by
      rw [← Option.isSome_iff_exists]
      by_contra hnone
      simp [scanNumber, hnone] at hclean
    change Unsigned ((NumberLiteral.scan (c :: cs)).value.getD Binary64.nan)
    rw [hx]
    exact NumberLiteral.unsigned_scan hx
  split at h
  · cases h
    simp only [scanWord, wordKind] at htopic ⊢
    split
    · trivial
    · rename_i hword
      rw [hword] at htopic
      exact fun hname => htopic (congrArg TokenKind.identifier hname)
  · obtain ⟨s, -, rfl⟩ := Option.map_eq_some_iff.1 h
    trivial

theorem regular_of_mem_lex {text : String} (h : (lex text).findings = []) {t : Token}
    (ht : t ∈ (lex text).tokens) : t.kind.Regular := by
  obtain ⟨gap, xs, -, htokens, hxs, -⟩ := exists_clean_pieces (by decide) h
  have hkind : t.kind ∈ xs.map (·.kind) ++ [.endOfInput] := by
    rw [← Piece.map_kind_tokens (Position.start.advanceBy gap), ← htokens]
    exact List.mem_map_of_mem ht
  rcases List.mem_append.1 hkind with hkind | hkind
  · obtain ⟨x, hx, hkind⟩ := List.mem_map.1 hkind
    obtain ⟨p, c, cs, rest, -, hs⟩ := hxs x hx
    exact hkind ▸ regular_scanToken hs rfl
  · rw [List.mem_singleton.1 hkind]
    trivial

end Lexer

namespace Expr

def Regular : Expr → Prop
  | .literal _ (.number x) => Unsigned x
  | .identifier _ name => name ≠ topicName
  | .member _ _ key false _ => ∃ span name, key = .identifier span name
  | _ => True

def AllRegular (e : Expr) : Prop := ∀ n, e.HasNode n → n.Regular

theorem AllRegular.root {e : Expr} (h : e.AllRegular) : e.Regular := h e (hasNode_root e)

theorem AllRegular.child {e c : Expr} (h : e.AllRegular) (hc : c ∈ e.children) : c.AllRegular := by
  rintro n ⟨path, hn⟩
  obtain ⟨i, hi⟩ := List.getElem?_of_mem hc
  refine h n ⟨i :: path, ?_⟩
  rw [at?, hi]
  exact hn

end Expr

theorem Spells.regular {us : List Sign} {e : Expr} (h : Spells us e)
    (hus : ∀ u ∈ us, u.token.kind.Regular) : e.Regular := by
  induction h with
  | literal span l =>
    cases l with
    | number x => exact hus _ List.mem_cons_self
    | _ => trivial
  | identifier span name => exact hus _ List.mem_cons_self
  | group a b h ih => exact ih fun u hu => hus u (by simp [hu])
  | infixed op => cases op <;> trivial
  | access => exact ⟨_, _, rfl⟩
  | _ => trivial

theorem Fits.regular {us : List Sign} {e : Expr} (h : Fits us e)
    (hus : ∀ u ∈ us, u.token.kind.Regular) : e.Regular := by
  cases h with
  | spells h => exact h.regular hus
  | name span hname =>
    cases hname with
    | identifier name => exact hus _ List.mem_cons_self
    | keyword k =>
      change k.text ≠ topicName
      cases k <;> decide

theorem allRegular_of_parse {text : String} {e : Expr} (h : Expr.parse text = .ok e) :
    e.AllRegular := by
  intro n hn
  obtain ⟨us, last, htokens, -, -, hspells⟩ := Expr.spells_of_parse h
  obtain ⟨path, hn⟩ := hn
  obtain ⟨vs, hvs, hfits⟩ := (Fits.spells hspells).exists_of_at? hn
  refine hfits.regular fun u hu => Lexer.regular_of_mem_lex (Expr.ofTokens_of_parse h).1 ?_
  rw [htokens]
  exact List.mem_append_left _ (List.mem_map_of_mem (hvs.subset hu))

end ExprLang
