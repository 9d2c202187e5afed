import ExprLang.Proofs.Lexing.Blanks
import ExprLang.Proofs.Places
import ExprLang.Token.Lexer

/-!
Texts in pieces. A text that is read is a row of lexemes with what is skipped around them; the
tokens begin and end where the lexemes do.
-/
namespace ExprLang.Lexer

/-- The text of a token and what is skipped after it. -/
structure Piece where
  kind : TokenKind
  lexeme : List Char
  gap : List Char

namespace Piece

def chars (x : Piece) : List Char := x.lexeme ++ x.gap

/-- The tokens of pieces from a position on. -/
def tokens (p : Position) : List Piece → List Token
  | [] => [⟨.endOfInput, .point p⟩]
  | x :: xs => ⟨x.kind, ⟨p, p.advanceBy x.lexeme⟩⟩ :: tokens (p.advanceBy x.chars) xs

/-- The piece was read as a token, with these findings. -/
def Scanned (findings : List Finding) (x : Piece) : Prop :=
  ∃ p c cs rest, isTriviaSpace c = false ∧
    scanToken p c cs = some ⟨x.kind, x.lexeme, rest, findings⟩

/-- What is skipped before, between and after the pieces. -/
def Separated (gap : List Char) : List Piece → Prop
  | [] => Blank true gap
  | x :: xs => Blank false gap ∧ Separated x.gap xs

variable {x : Piece} {xs : List Piece} {gap cs : List Char} {p : Position}

theorem Scanned.exists_cons {findings : List Finding} (h : x.Scanned findings) :
    ∃ c cs, x.lexeme = c :: cs ∧ isTriviaSpace c = false := by
  obtain ⟨p, c, cs, rest, hc, hs⟩ := h
  obtain ⟨happend, hne⟩ := scanToken_append hs
  obtain ⟨c', cs', hlexeme⟩ := List.exists_cons_of_ne_nil hne
  refine ⟨c', cs', hlexeme, ?_⟩
  rw [hlexeme] at happend
  rwa [(List.cons.inj happend).1]

theorem map_kind_tokens (p : Position) (xs : List Piece) :
    (tokens p xs).map (·.kind) = xs.map (·.kind) ++ [.endOfInput] := by
  induction xs generalizing p with
  | nil => rfl
  | cons x xs ih => exact congrArg (x.kind :: ·) (ih _)

end Piece

theorem scanToken_kind_ne {p : Position} {c : Char} {cs : List Char} {s : Scanned}
    (h : scanToken p c cs = some s) : s.kind ≠ .endOfInput := by
  unfold scanToken at h
  split at h
  · cases h
    exact TokenKind.noConfusion
  split at h
  · cases h
    exact TokenKind.noConfusion
  split at h
  · cases h
    simp only [scanWord, wordKind]
    split <;> exact TokenKind.noConfusion
  · obtain ⟨s, -, rfl⟩ := Option.map_eq_some_iff.1 h
    exact TokenKind.noConfusion

section Steps

variable {p q : Position} {c : Char} {cs rest : List Char} {s : Scanned}

theorem tokens_endAt (p : Position) (cs : List Char) (findings : List Finding) :
    (endAt (Trivia.scan .between p cs).stop findings).tokens =
      Piece.tokens (p.advanceBy (Trivia.scan .between p cs).skipped) [] := by
  rw [Trivia.stop_scan]
  rfl

/-- A text up to the end of its first token. -/
theorem eq_append_lexeme (hrest : (Trivia.scan .between p cs).rest = c :: rest)
    (hs : scanToken q c rest = some s) :
    cs = (Trivia.scan .between p cs).skipped ++ (s.lexeme ++ s.rest) := by
  rw [(scanToken_append hs).1, ← hrest, Trivia.skipped_append_rest]

/-- The tokens of a text whose first token has been read. -/
theorem cons_tokens (kind : TokenKind) (lexeme gap : List Char) (xs : List Piece) :
    let t := Trivia.scan .between p cs
    (⟨kind, ⟨t.stop, t.stop.advanceBy lexeme⟩⟩ ::
        Piece.tokens ((t.stop.advanceBy lexeme).advanceBy gap) xs) =
      Piece.tokens (p.advanceBy t.skipped) (⟨kind, lexeme, gap⟩ :: xs) := by
  intro t
  rw [Trivia.stop_scan, Piece.tokens, Piece.chars, Position.advanceBy_append]

end Steps

/-- Whatever the errors are, what is read are pieces of the text in their order. What is skipped
before them and behind them may also be stray characters, and reading may stop early. -/
theorem exists_pieces (budget : Nat) (p : Position) (cs : List Char) :
    ∃ gap xs rest, cs = gap ++ (xs.flatMap Piece.chars ++ rest) ∧
      (scan budget p cs).tokens = Piece.tokens (p.advanceBy gap) xs ∧
      ∀ x ∈ xs, ∃ findings, x.Scanned findings := by
  fun_induction scan budget p cs with
  | case1 budget p cs t =>
    exact ⟨t.skipped, [], t.rest, (Trivia.skipped_append_rest .between p cs).symm,
      tokens_endAt p cs _, by simp⟩
  | case2 budget p cs t =>
    exact ⟨t.skipped, [], t.rest, (Trivia.skipped_append_rest .between p cs).symm,
      tokens_endAt p cs _, by simp⟩
  | case3 budget p cs t budget' hb c rest hrest hs next ih =>
    obtain ⟨gap, xs, more, hmore, htokens, hxs⟩ := ih
    refine ⟨t.skipped ++ c :: gap, xs, more, ?_, ?_, hxs⟩
    · rw [List.append_assoc, List.cons_append, ← hmore, ← hrest]
      exact (Trivia.skipped_append_rest .between p cs).symm
    · rw [Position.advanceBy_append, Position.advanceBy_cons, ← Trivia.stop_scan .between p cs]
      exact htokens
  | case4 budget p cs t budget' hb c rest hrest s hs stop budget'' more ih =>
    have hmore : ∃ gap xs rest, s.rest = gap ++ (xs.flatMap Piece.chars ++ rest) ∧
        more.tokens = Piece.tokens (stop.advanceBy gap) xs ∧
        ∀ x ∈ xs, ∃ findings, x.Scanned findings := by
      unfold more
      split
      · exact ⟨[], [], s.rest, rfl, rfl, by simp⟩
      · exact ih
    obtain ⟨gap, xs, left, hleft, htokens, hxs⟩ := hmore
    have hc : isTriviaSpace c = false := Trivia.not_isTriviaSpace_of_rest hrest
    refine ⟨t.skipped, ⟨s.kind, s.lexeme, gap⟩ :: xs, left, ?_, ?_, ?_⟩
    · rw [List.flatMap_cons, Piece.chars, List.append_assoc, List.append_assoc, ← hleft]
      exact eq_append_lexeme hrest hs
    · exact (congrArg _ htokens).trans (cons_tokens s.kind s.lexeme gap xs)
    · exact List.forall_mem_cons.2 ⟨⟨s.findings, t.stop, c, rest, s.rest, hc, hs⟩, hxs⟩

/-- Without errors all of the text is read, and only blanks are skipped. -/
theorem exists_clean_pieces {budget : Nat} (hbudget : budget ≠ 0) {p : Position} {cs : List Char}
    (hclean : (scan budget p cs).findings = []) :
    ∃ gap xs, cs = gap ++ xs.flatMap Piece.chars ∧
      (scan budget p cs).tokens = Piece.tokens (p.advanceBy gap) xs ∧
      (∀ x ∈ xs, x.Scanned []) ∧ Piece.Separated gap xs := by
  fun_induction scan budget p cs with
  | case1 budget p cs t budget' hb =>
    have hfindings : t.findings = [] := hclean
    have hbudget' : budget' = budget := by simp [budget', hfindings]
    exact absurd (hbudget'.symm.trans hb) hbudget
  | case2 budget p cs t budget' hb hrest =>
    have hblank : Blank t.rest.isEmpty t.skipped := Trivia.blank_scan hclean
    have happend := Trivia.skipped_append_rest .between p cs
    rw [hrest] at hblank happend
    refine ⟨t.skipped, [], happend.symm.trans ?_, tokens_endAt p cs _, by simp, hblank⟩
    rfl
  | case3 => simp [Lexed.report] at hclean
  | case4 budget p cs t budget' hb c rest hrest s hs stop budget'' more ih =>
    obtain ⟨hskip, hmore⟩ := List.append_eq_nil_iff.1 hclean
    obtain ⟨htoken, hmore⟩ := List.append_eq_nil_iff.1 hmore
    have hbudget'' : budget'' = budget := by simp [budget'', budget', hskip, htoken]
    have hmore_eq : more = scan budget'' stop s.rest := if_neg (hbudget''.symm ▸ hbudget)
    rw [hmore_eq] at hmore ⊢
    obtain ⟨gap, xs, hleft, htokens, hxs, hgaps⟩ := ih (hbudget''.symm ▸ hbudget) hmore
    have hc : isTriviaSpace c = false := Trivia.not_isTriviaSpace_of_rest hrest
    have hblank : Blank t.rest.isEmpty t.skipped := Trivia.blank_scan hskip
    rw [hrest] at hblank
    refine ⟨t.skipped, ⟨s.kind, s.lexeme, gap⟩ :: xs, ?_, ?_, ?_, hblank, hgaps⟩
    · rw [List.flatMap_cons, Piece.chars, List.append_assoc, ← hleft]
      exact eq_append_lexeme hrest hs
    · exact (congrArg _ htokens).trans (cons_tokens s.kind s.lexeme gap xs)
    · exact List.forall_mem_cons.2 ⟨⟨t.stop, c, rest, s.rest, hc, htoken ▸ hs⟩, hxs⟩

end ExprLang.Lexer
