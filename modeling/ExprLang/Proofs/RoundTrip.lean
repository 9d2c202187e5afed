import ExprLang.Proofs.Parsing.Nodes

/-!
Parsing undoes writing. Trees that the concrete syntax can express, and that are not too high, are
read again from their texts, up to spans.
-/
namespace ExprLang

open Parse
open TokenKind (front)

namespace Expr

variable {s : Style} {m : Nat}

/-- A tree as it is read by itself, within enough further levels. -/
structure ReadsBack (s : Style) (t : Expr) : Prop where
  plain : t.isPlain = true → ∀ m, 2 * t.height ≤ m + 2 →
    (primary (parser m)).Restores eraseSpans (· ≠ .symbol .arrow) (t.tokens s) t
  whole : ∀ m, 2 * t.height ≤ m + 2 → ReadsWhole s m t

theorem ReadsBack.part {t c : Expr} (h : ReadsBack s c) (hs : s.Safe) (hc : c.Expressible)
    (hchild : c ∈ t.children) (hm : 2 * t.height ≤ m + 2) : ReadsPart s m c := by
  have hlower : c.height < t.height := height_lt hchild
  have hpos : 0 < c.height := by
    rw [height_eq]
    exact Nat.succ_pos _
  exact readsPart hs hc (fun hplain k hk => h.plain hplain k (by omega))
    (fun k hk => h.whole k (by omega)) (by omega)

theorem ReadsBack.of_plain {t : Expr}
    (hfront : ∀ more, UnaryOp.ofToken? (front (t.tokens s ++ more)) = none)
    (h : ∀ m, 2 * t.height ≤ m + 2 →
      (primary (parser m)).Restores eraseSpans (· ≠ .symbol .arrow) (t.tokens s) t) :
    ReadsBack s t where
  plain _ := h
  whole m hm := readsWhole_of_primary hfront ((h m hm).mono fun _ hk =>
    ne_arrow_of_closes (TokenKind.closes_of_endsItem hk))

theorem ReadsBack.of_compound {t : Expr} (hcompound : t.isPlain = false)
    (h : ∀ m, 2 * t.height ≤ m + 2 → ReadsWhole s m t) : ReadsBack s t where
  plain hplain := Bool.noConfusion (hplain.symm.trans hcompound)
  whole := h

theorem ReadsBack.of_atom (a : Atom) (span : Span) : ReadsBack s (a.tree span) := by
  have htokens : (a.tree span).tokens s = [a.token] := by
    cases a <;> rfl
  refine .of_plain (fun more => ?_) fun m _ c more hc hmore => ?_
  · rw [htokens]
    exact UnaryOp.ofToken?_atom a
  · rw [htokens] at hc
    refine reads_primary a hc hmore fun span' d hd => ⟨?_, hd⟩
    cases a <;> rfl

/-- Each tree is read back if its parts are. -/
theorem Expressible.readsBack (hs : s.Safe) {t : Expr} (ht : t.Expressible) : ReadsBack s t := by
  induction ht with
  | @literal span l => exact .of_atom (.literal l) span
  | @identifier span name => exact .of_atom (.identifier name) span
  | @topic span => exact .of_atom .topic span
  | unary hargument ih =>
    refine .of_compound rfl fun m hm => readsWhole_unary _ ?_
    exact ih.part hs hargument (by simp [children]) hm
  | @binary span op left right hleft hright ihleft ihright =>
    refine .of_compound rfl fun m hm => ?_
    have hl : ReadsPart s m left := ihleft.part hs hleft (by simp [children]) hm
    have hr : ReadsPart s m right := ihright.part hs hright (by simp [children]) hm
    by_cases hop : op = .pow
    · subst hop
      exact readsWhole_power hl hr
    · exact readsWhole_infix (.binary op) (fun h => hop (InfixOp.binary.inj h)) hl hr
  | @logical span op left right hleft hright ihleft ihright =>
    refine .of_compound rfl fun m hm => readsWhole_infix (.logical op) InfixOp.noConfusion ?_ ?_
    · exact ihleft.part hs hleft (by simp [children]) hm
    · exact ihright.part hs hright (by simp [children]) hm
  | coalesce hleft hright ihleft ihright =>
    refine .of_compound rfl fun m hm => readsWhole_infix .coalesce InfixOp.noConfusion ?_ ?_
    · exact ihleft.part hs hleft (by simp [children]) hm
    · exact ihright.part hs hright (by simp [children]) hm
  | conditional htest hconsequent halternate ihtest ihconsequent ih =>
    refine .of_compound rfl fun m hm => readsWhole_conditional ?_ ?_ fun e he => ?_
    · exact ihtest.part hs htest (by simp [children]) hm
    · exact ihconsequent.part hs hconsequent (by simp [children]) hm
    · exact (ih e he).part hs (halternate e he) (by simp [children, he]) hm
  | object hkeys hvalues ih =>
    refine .of_plain (fun more => rfl) fun m hm => restores_object hkeys (fun p hp => ?_) _
    exact (ih p hp).part hs (hvalues p hp) (List.mem_map_of_mem hp) hm
  | @array span es hes ih =>
    refine .of_plain (fun more => rfl) fun m hm => restores_array (fun e he => ?_) _
    have hchild : e ∈ (Expr.array span es).children := List.mem_filterMap.2 ⟨some e, he, rfl⟩
    exact (ih e he).part hs (hes e he) hchild hm
  | access htarget hname ih =>
    refine .of_compound rfl fun m hm => readsWhole_member ?_
    exact ih.part hs htarget (by simp [children]) hm
  | lookup htarget hkey ihtarget ihkey =>
    refine .of_compound rfl fun m hm => readsWhole_lookup ?_ ?_
    · exact ihtarget.part hs htarget (by simp [children]) hm
    · exact ihkey.part hs hkey (by simp [children]) hm
  | @call span callee as hcallee has ihcallee ih =>
    refine .of_compound rfl fun m hm => readsWhole_call ?_ fun e he => ?_
    · exact ihcallee.part hs hcallee (by simp [children]) hm
    · have hchild : e ∈ (Expr.call span callee as).children :=
        List.mem_cons_of_mem _ (List.mem_filterMap.2 ⟨.value e, he, rfl⟩)
      exact (ih e he).part hs (has e he) hchild hm
  | pipe hhead hne hss ihhead ih =>
    refine .of_compound rfl fun m hm => readsWhole_pipe hne ?_ fun st hst => ?_
    · exact ihhead.part hs hhead (by simp [children]) hm
    · exact (ih st hst).part hs (hss st hst) (List.mem_cons_of_mem _ (List.mem_map_of_mem hst)) hm
  | lambda _ hbody ih =>
    refine .of_compound rfl fun m hm => readsWhole_lambda ?_
    exact ih.part hs hbody (by simp [children]) hm
  | letIn hne _ hinits hbody ih ihbody =>
    refine .of_compound rfl fun m hm => readsWhole_letIn hne (fun d hd => ?_) ?_
    · exact (ih d hd).part hs (hinits d hd) (List.mem_append_left _ (List.mem_map_of_mem hd)) hm
    · exact ihbody.part hs hbody (by simp [children]) hm

/-- A tree that the syntax can express is read from its text as it was, up to spans, if it is not
too high: writing it in parentheses takes two levels of nesting for each level of the tree. -/
theorem parse_written (hs : s.Safe) {t : Expr} (ht : t.Expressible)
    (hheight : 2 * t.height ≤ maxNesting) :
    ∃ e, parse (t.written s) = .ok e ∧ e.eraseSpans = t.eraseSpans := by
  have hlegible : ∀ k ∈ t.tokens s, k.Legible := ht.legible_tokens
  have hend : TokenKind.endOfInput ∉ t.tokens s := fun h => hlegible _ h
  obtain ⟨ts, hlex, hkinds⟩ := lex_writeAll hlegible
  have hsees : (Cursor.ofTokens ts).Sees (t.tokens s ++ []) := by
    rw [List.append_nil]
    exact Cursor.sees_ofTokens hkinds hend
  have hm : 2 * t.height ≤ 62 + 2 := hheight
  obtain ⟨e, c, hparser, he, hc⟩ := (ht.readsBack hs).whole 63 (Nat.le_succ_of_le hm) _ [] hsees rfl
  have hsame : e.height = t.height := by rw [← height_eraseSpans, he, height_eraseSpans]
  have hdeep : e.deeperThan? maxHeight = none := by
    refine deeperThan?_eq_none ?_
    unfold maxHeight
    omega
  exact ⟨e, parse_eq_ok hlex (ofTokens_eq_some hparser hc hdeep), he⟩

/-- A style with parentheses around compound operands only. -/
def sparing : Style where
  wraps e := !e.isPlain
  encloses _ := false
  trailing := false
  bare := true

/-- A binding, a lambda, a pipe, holes, a placeholder and a property whose name is a keyword. -/
theorem parse_written_binding :
    let f : Expr := .lambda noSpan [⟨"x", noSpan⟩]
      (.binary noSpan .pow (.unary noSpan .minus (.identifier noSpan "x"))
        (.literal noSpan (.number 2.5)))
    let item : Expr := .object noSpan [⟨.literal (.string "a\"b") noSpan,
      .member noSpan (.topic noSpan) (.identifier noSpan "if") false false, noSpan⟩]
    let call : Expr :=
      .call noSpan (.identifier noSpan "f") [.placeholder noSpan, .value (.topic noSpan)]
    let t : Expr := .letIn noSpan [⟨⟨"f", noSpan⟩, f, noSpan⟩]
      (.pipe noSpan (.array noSpan [none, some item]) [⟨true, call⟩])
    sparing.Safe ∧ t.Expressible ∧ 2 * t.height ≤ maxNesting ∧
      t.written sparing = "let f = x => ( - x ) ^ 2.5 , " ++
        "[ , \x7b \"a\\\"b\" : % . if \x7d , ] |? ( f ( # , % ) ) " ∧
      ∃ e, parse (t.written sparing) = .ok e ∧ e.eraseSpans = t.eraseSpans := by
  intro f item call t
  have hs : sparing.Safe := fun e he => congrArg (!·) he
  have hnameF : (TokenKind.identifier "f").Legible := ⟨⟨rfl, rfl⟩, rfl⟩
  have hnameX : (TokenKind.identifier "x").Legible := ⟨⟨rfl, rfl⟩, rfl⟩
  have hnumber : (Literal.number 2.5).token.Legible :=
    ⟨by decide +kernel, by decide +kernel, by decide +kernel⟩
  have hf : f.Expressible :=
    .lambda (List.forall_mem_singleton.2 hnameX)
      (.binary (.unary (.identifier hnameX)) (.literal hnumber))
  have hitem : item.Expressible :=
    .object (List.forall_mem_singleton.2 .string)
      (List.forall_mem_singleton.2 (.access .topic ⟨rfl, rfl⟩))
  have hlist : ∀ e, some e ∈ [none, some item] → e.Expressible := by
    intro e he
    obtain rfl : e = item := by simpa using he
    exact hitem
  have hcall : call.Expressible := by
    refine .call (.identifier hnameF) fun e he => ?_
    obtain rfl : e = .topic noSpan := by simpa using he
    exact .topic
  have ht : t.Expressible :=
    .letIn (List.cons_ne_nil _ _) (List.forall_mem_singleton.2 hnameF)
      (List.forall_mem_singleton.2 hf)
      (.pipe (.array hlist) (List.cons_ne_nil _ _) (List.forall_mem_singleton.2 hcall))
  have hheight : 2 * t.height ≤ maxNesting := by decide
  exact ⟨hs, ht, hheight, by decide +kernel, parse_written hs ht hheight⟩

end Expr

end ExprLang
