import ExprLang.Proofs.EntryPoints
import ExprLang.Proofs.Parsing.Walks

/-!
Tokens can be parsed whatever they are. The walking parser returns, it stays before the first end of
input and within the nesting limit, and it ends with a tree or with an error.
-/
namespace ExprLang

namespace Walker

variable {ts : List Token} {w : Walker} {c : Cursor} {e : Expr} {calls : Nat}

/-- An end of input is there, or it is added behind the tokens. -/
theorem exists_tokens_ofTokens (ts : List Token) :
    ∃ after, (ofTokens ts).tokens =
      (Cursor.ofTokens ts).rest ++ ⟨.endOfInput, (Cursor.ofTokens ts).stop⟩ :: after := by
  cases hfind : ts.find? fun t => t.kind = .endOfInput with
  | some t =>
    have hmore : ∃ more, (ofTokens ts).tokens = ts ++ more := by
      cases hlast : ts.getLast? with
      | none => simp [List.getLast?_eq_none_iff.1 hlast] at hfind
      | some u =>
        by_cases hu : u.kind = .endOfInput
        · exact ⟨[], by simp [ofTokens, hlast, hu]⟩
        · exact ⟨_, by simp only [ofTokens, hlast, if_neg hu]; rfl⟩
    obtain ⟨more, hmore⟩ := hmore
    obtain ⟨hkind, before, after, rfl, hbefore⟩ := List.find?_eq_some_iff_append.1 hfind
    have htake : ((before ++ t :: after).takeWhile fun t => t.kind ≠ .endOfInput) = before := by
      rw [List.takeWhile_append_of_pos (by simpa using hbefore),
        List.takeWhile_cons_of_neg (by simpa using hkind), List.append_nil]
    obtain ⟨kind, span⟩ := t
    obtain rfl : kind = .endOfInput := of_decide_eq_true hkind
    refine ⟨after ++ more, ?_⟩
    simp only [hmore, Cursor.ofTokens, hfind, htake]
    rw [List.append_assoc, List.cons_append]
  | none =>
    have hkinds : ∀ t ∈ ts, t.kind ≠ .endOfInput := by simpa using hfind
    have htake : (ts.takeWhile fun t => t.kind ≠ .endOfInput) = ts :=
      List.takeWhile_eq_self_iff.2 fun t ht => decide_eq_true (hkinds t ht)
    refine ⟨[], ?_⟩
    simp only [Cursor.ofTokens, hfind, htake]
    cases hlast : ts.getLast? with
    | none =>
      obtain rfl := List.getLast?_eq_none_iff.1 hlast
      rfl
    | some u =>
      simp only [ofTokens, hlast, if_neg (hkinds u (List.mem_of_getLast? hlast))]
      rfl

theorem views_ofTokens (ts : List Token) : (ofTokens ts).Views (Cursor.ofTokens ts) := by
  obtain ⟨after, htokens⟩ := exists_tokens_ofTokens ts
  refine ⟨[], after, htokens, rfl, fun t ht => ?_, rfl⟩
  simpa using List.mem_takeWhile_imp ht

theorem endPosition_ofTokens (ts : List Token) :
    (ofTokens ts).endPosition = ts.findIdx fun t => t.kind = .endOfInput := by
  have hkinds : (fun t : Token => !decide (t.kind ≠ .endOfInput)) =
      fun t => decide (t.kind = .endOfInput) := by
    funext t
    simp
  rw [(views_ofTokens ts).endPosition_eq, Cursor.ofTokens, List.takeWhile_eq_take_findIdx_not,
    hkinds, List.length_take, Nat.min_eq_left List.findIdx_le_length]
  exact Nat.zero_add _

theorem sound_ofTokens (ts : List Token) : (ofTokens ts).Sound where
  within := by
    intro v hv
    obtain rfl : v = (0, 0) := by simpa [ofTokens] using hv
    exact ⟨Nat.zero_le _, Nat.zero_le _⟩
  returned := List.forall_mem_nil _

theorem isEmpty_rest (h : w.Views c) :
    c.rest.isEmpty = decide (c.token.kind = .endOfInput) := by
  obtain ⟨before, after, -, -, hkinds, -⟩ := h
  cases hrest : c.rest with
  | nil => simp [Cursor.token, hrest]
  | cons t rest =>
    have ht : t.kind ≠ .endOfInput := hkinds t (by simp [hrest])
    simp [Cursor.token, hrest, ht]

/-- Behind the expression the same errors are found. -/
theorem exists_finish (h : w.Views c) (herrors : w.errors = [])
    (hparser : Expr.parser maxNesting (.ofTokens ts) = .ok (e, c)) :
    ∃ w', w.finish (some e) = some (Expr.ofTokens ts, w') ∧ w.Steps w' ∧
      w'.position = w.position := by
  have htrailing : ∃ w', (if c.token.kind ≠ .endOfInput ∧ w.errors.length < ErrorLog.limit then
        w.report ⟨.trailingToken c.token.kind, c.token.span⟩ else w) = w' ∧
      w'.errors = (if c.token.kind = .endOfInput then []
        else [⟨.trailingToken c.token.kind, c.token.span⟩]) ∧
      w.Steps w' ∧ w'.position = w.position := by
    by_cases hend : c.token.kind = .endOfInput
    · exact ⟨w, by simp [hend], by simp [hend, herrors], .refl w, rfl⟩
    · have hroom : w.errors.length < ErrorLog.limit := herrors ▸ Nat.succ_pos _
      exact ⟨_, if_pos ⟨hend, hroom⟩, by simp [hend, herrors, report], .report w _, rfl⟩
  obtain ⟨w', hw', herrors', hsteps, hposition⟩ := htrailing
  unfold finish Expr.ofTokens
  rw [hparser, h.token?_eq]
  simp only [isEmpty_rest h, Option.isSome_some, Option.bind_some, Option.bind_eq_bind,
    Bool.true_and, Bool.and_eq_true, decide_eq_true_eq, hw', ← herrors']
  cases e.deeperThan? maxHeight with
  | none => exact ⟨w', rfl, hsteps, hposition⟩
  | some node => exact ⟨w'.report _, rfl, hsteps.trans (.report w' _), hposition⟩

theorem finish_none (h : w.tokens ≠ []) : w.finish none = some (⟨none, w.errors⟩, w) := by
  have hlt : min w.position (w.tokens.length - 1) < w.tokens.length := by
    have := List.length_pos_iff.2 h
    omega
  rw [finish, token?, List.getElem?_eq_getElem hlt]
  simp

theorem rest_eq_nil_of_findings
    (hparser : Expr.parser maxNesting (.ofTokens ts) = .ok (e, c))
    (h : (Expr.ofTokens ts).findings = []) : c.rest = [] := by
  unfold Expr.ofTokens at h
  rw [hparser] at h
  cases hrest : c.rest with
  | nil => rfl
  | cons t rest =>
    simp only [hrest] at h
    cases hdeep : e.deeperThan? maxHeight with
    | none => simp [hdeep] at h
    | some node => simp [hdeep] at h

/-- The walking parser returns with what the parser of trees reads. -/
theorem exists_walk (ts : List Token) (h : maxNesting < calls) :
    ∃ w, walk calls ts = some (Expr.ofTokens ts, w) ∧ (ofTokens ts).Steps w ∧
      ((Expr.ofTokens ts).findings = [] → w.position = w.endPosition) := by
  have hstands : Walk.Stands 0 0 (ofTokens ts) (.ofTokens ts) := ⟨views_ofTokens ts, rfl, le_rfl⟩
  have hwalks := (Walk.walks_parsers maxNesting (Nat.zero_add _) h).1
  cases hwalks 0 _ _ hstands with
  | gives e w c walks reads steps errors_eq holds =>
    obtain ⟨w', hfinish, hsteps, hposition⟩ := exists_finish holds.views errors_eq reads
    refine ⟨w', ?_, steps.trans hsteps, fun hfindings => ?_⟩
    · rw [walk, walks]
      exact hfinish
    · rw [hsteps.endPosition_eq, holds.views.endPosition_eq,
        rest_eq_nil_of_findings reads hfindings, hposition]
      rfl
  | fails f w walks reads steps errors_eq =>
    have htokens : w.tokens ≠ [] := by
      obtain ⟨after, hafter⟩ := exists_tokens_ofTokens ts
      simp [steps.tokens_eq, hafter]
    have hparsed : Expr.ofTokens ts = ⟨none, [f]⟩ := by rw [Expr.ofTokens, reads]
    refine ⟨w, ?_, steps, fun hfindings => ?_⟩
    · rw [walk, walks]
      refine (finish_none htokens).trans ?_
      rw [errors_eq, hparsed]
      rfl
    · rw [hparsed] at hfindings
      cases hfindings

end Walker

/-- Followed through more calls than may be nested, the parser returns from any tokens. Its cursor
never moves past the first end of input, and its depth stays within the limit and is restored by
every function, which has found an error if it has no result. In the end there is a tree, with all
tokens before the end of input used, or an error. -/
theorem walk_total {calls : Nat} (ts : List Token) (h : maxNesting < calls) :
    ∃ parsed w, Walker.walk calls ts = some (parsed, w) ∧
      (∀ v ∈ w.visited, v.1 ≤ (ts.findIdx fun t => t.kind = .endOfInput) ∧ v.2 ≤ maxNesting) ∧
      (∀ r ∈ w.returns, r.depthAfter = r.depthBefore ∧
        (r.hasResult = false → r.errorsBefore < r.errorsAfter)) ∧
      ((∃ e, parsed = ⟨some e, []⟩ ∧ w.position = ts.findIdx fun t => t.kind = .endOfInput) ∨
        parsed.findings ≠ []) := by
  obtain ⟨w, hwalk, hsteps, hposition⟩ := Walker.exists_walk ts h
  have hsound := hsteps.sound (Walker.sound_ofTokens ts)
  have hend := hsteps.endPosition_eq.trans (Walker.endPosition_ofTokens ts)
  refine ⟨_, w, hwalk, fun v hv => ?_, fun r hr => ?_, ?_⟩
  · exact hend ▸ hsound.within v (List.mem_cons_of_mem _ hv)
  · exact ⟨(hsound.returned r hr).depth_eq, (hsound.returned r hr).errors_lt⟩
  · obtain ⟨e, he⟩ | hfindings := Expr.ofTokens_or ts
    · exact .inl ⟨e, he, (hposition (congrArg Expr.Parsed.findings he)).trans hend⟩
    · exact .inr hfindings

/-- A parenthesis behind the end of input is out of reach. -/
theorem walk_total_cut : maxNesting < 65 ∧ ∃ parsed w,
    Walker.walk 65 [⟨.symbol .leftParen, .point .start⟩, ⟨.endOfInput, .point .start⟩,
      ⟨.symbol .rightParen, .point .start⟩] = some (parsed, w) ∧ ∀ v ∈ w.visited, v.1 ≤ 1 := by
  obtain ⟨parsed, w, hwalk, hvisited, -⟩ := walk_total [⟨.symbol .leftParen, .point .start⟩,
    ⟨.endOfInput, .point .start⟩, ⟨.symbol .rightParen, .point .start⟩]
    (by decide : maxNesting < 65)
  exact ⟨by decide, parsed, w, hwalk, fun v hv => (hvisited v hv).1⟩

end ExprLang
