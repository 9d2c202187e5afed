import ExprLang.Proofs.Listings.Nodes

/-!
Calls, pipes and what binds names: nodes whose texts show how many parts they have.
-/
namespace ExprLang

open Listing

namespace Expr

variable {span span' : Span} {a a' : Expr} {p q : List Char} {P : Prop}
  {as as' : List (Argument Expr)} {ss ss' : List (Stage Expr)} {ps ps' : List Name}
  {ds ds' : List (Declaration Expr)}

/-- A row of numbered names shows how many there are. -/
theorem decides_positions {letter c : Char} (hletter : letter ∉ closers) (hc : c ∈ closers)
    (hcomma : c ≠ ',') (is js : List Nat) (hpq : Decides p q P) :
    Decides (commaJoin (is.map (numbered letter)) ++ c :: p)
      (commaJoin (js.map (numbered letter)) ++ c :: q) (is.length = js.length ∧ P) :=
  (Decides.row hc hcomma (fun i _ => opening_numbered hletter i)
    (fun i _ => opening_numbered hletter i) (fun i _ j _ => decides_numbered letter i j) hpq).imp
      fun _ h => ⟨h.1.length_eq, h.2⟩

section Calls

variable (hopens : ∀ x ∈ as.zipIdx, Opening (argumentText x))
  (hopens' : ∀ x ∈ as'.zipIdx, Opening (argumentText x))
  (h : ∀ x ∈ as.zipIdx, ∀ x' ∈ as'.zipIdx,
    Decides (argumentText x) (argumentText x') (AgreesArgument x x'))

theorem callClose_eq : callClose = [']', ')'] := by decide

theorem callOpen_eq : callOpen = [',', '['] := by decide

theorem bareEnd_eq : ",null)".toList = [',', 'n', 'u', 'l', 'l', ')'] := by decide

include hopens hopens' h in
theorem decides_callEnd :
    Decides (callEnd as) (callEnd as') (List.Forall₂ AgreesArgument as.zipIdx as'.zipIdx) := by
  have hbare (x : Argument Expr) (xs : List (Argument Expr)) {P : Prop} :
      Decides (callEnd []) (callEnd (x :: xs)) P := by
    refine .of_ne fun r r' heq => ?_
    simp only [callEnd, List.isEmpty_nil, List.isEmpty_cons, if_true, Bool.false_eq_true, if_false,
      bareEnd_eq, callOpen_eq, List.cons_append] at heq
    exact absurd (List.cons.inj (List.cons.inj heq).2).1 (by decide)
  rcases as with _ | ⟨x, xs⟩ <;> rcases as' with _ | ⟨x', xs'⟩
  · exact (Decides.same _).imp fun _ _ => .nil
  · exact hbare x' xs'
  · exact (hbare x xs).symm
  · simp only [callEnd, List.isEmpty_cons, Bool.false_eq_true, if_false, callClose_eq]
    exact .after _ ((Decides.row (by decide) (by decide) hopens hopens' h (.same [')'])).imp
      fun _ h => h.1)

theorem isPlaceholder_eq {i : Nat} (h : List.Forall₂ AgreesArgument (as.zipIdx i) (as'.zipIdx i)) :
    as.map (·.isPlaceholder) = as'.map (·.isPlaceholder) := by
  induction as generalizing as' i with
  | nil =>
    cases as' with
    | nil => rfl
    | cons x' as' => nomatch h
  | cons x as ih =>
    rcases as' with _ | ⟨x', as'⟩
    · nomatch h
    obtain ⟨hx, hrest⟩ := List.forall₂_cons.1 h
    rcases x with e | place <;> rcases x' with e' | place' <;> try exact hx.elim
    · exact congrArg (false :: ·) (ih hrest)
    · exact congrArg (true :: ·) (ih hrest)

theorem placeholders_eq (h : as.map (·.isPlaceholder) = as'.map (·.isPlaceholder)) (i : Nat) :
    placeholders i as = placeholders i as' := by
  induction as generalizing as' i with
  | nil =>
    cases as' with
    | nil => rfl
    | cons x' as' => nomatch h
  | cons x as ih =>
    rcases as' with _ | ⟨x', as'⟩
    · nomatch h
    obtain ⟨hx, hrest⟩ := List.cons.inj h
    rcases x with e | place <;> rcases x' with e' | place'
    · exact ih hrest _
    · nomatch hx
    · nomatch hx
    · exact congrArg (i :: ·) (ih hrest _)

theorem closing_callEnd (as : List (Argument Expr)) : Closing (callEnd as) := by
  rw [callEnd]
  split
  · exact bareEnd_eq ▸ closing_comma _
  · exact callOpen_eq ▸ closing_comma _

theorem compile_call_eq (ha : Agrees a a')
    (has : List.Forall₂ AgreesArgument as.zipIdx as'.zipIdx)
    (hplaces : SamePlaces (call span a as) (call span' a' as')) (start : Nat) :
    (call span a as).compile start = (call span' a' as').compile start := by
  have hshape := isPlaceholder_eq has
  have hempty : as.isEmpty = as'.isEmpty := by
    have h := congrArg List.isEmpty hshape
    rwa [List.isEmpty_map, List.isEmpty_map] at h
  have hany : as.any (·.isPlaceholder) = as'.any (·.isPlaceholder) := by
    simpa only [List.any_map, Function.id_comp] using congrArg (List.any · id) hshape
  have hhead : curryHead as = curryHead as' := by
    unfold curryHead
    rw [placeholders_eq hshape]
  have hcallee := ha.compile hplaces.children.head
  have harguments := compileArguments_eq has hplaces.children.tail
  simp only [compile, hempty, hany, hhead, hcallee, harguments, ha.width]

theorem decides_curryHead (hpq : Decides p q P) :
    Decides (curryHead as ++ p) (curryHead as' ++ q) P := by
  have hclose : ")=>".toList = [')', '=', '>'] := by decide
  unfold curryHead
  rw [hclose]
  simp only [List.append_assoc, List.cons_append, List.nil_append]
  exact .after _ ((decides_positions (by decide) (by decide) (by decide) _ _
    (.cons '=' (.cons '>' hpq))).imp fun _ h => h.2)

include hopens hopens' h in
theorem told_call (ha : Told a a')
    (hform : (call span a as).form = (call span' a' as').form) :
    Told (call span a as) (call span' a' as') := by
  refine .of (P := Agrees a a' ∧ List.Forall₂ AgreesArgument as.zipIdx as'.zipIdx) ?_
    fun ⟨ha, has⟩ hplaces => compile_call_eq ha has hplaces
  have hend := decides_callEnd hopens hopens' h
  rw [form, form] at hform
  cases has : as.any (·.isPlaceholder) <;> cases has' : as'.any (·.isPlaceholder) <;>
    rw [has, has'] at hform
  · rw [text_call has, text_call has']
    exact .after _ (ha.append (closing_callEnd as) (closing_callEnd as') hend)
  · exact Form.noConfusion hform
  · exact Form.noConfusion hform
  · rw [text_curry has, text_curry has']
    have hclose : Closing curryClose := closing_of_head? (c := ')') (by decide) (by decide)
    exact (decides_curryHead (.after _ (ha.append ((closing_callEnd as).append _)
      ((closing_callEnd as').append _) (hend.append hclose hclose (.same _))))).imp
        fun _ h => ⟨h.1, h.2.1⟩

end Calls

section Pipes

theorem eq_of_stageHead (optional optional' : Bool)
    (h : stageHead optional <+: stageHead optional') : optional = optional' := by
  revert h
  cases optional <;> cases optional' <;> decide

theorem closing_stageClose : Closing stageClose :=
  closing_of_head? (c := '\x7d') (by decide) (by decide)

theorem opening_stage (s : Stage Expr) : Opening (stageText s) := by
  have hhead : ∀ optional, stageHead optional = '\x7b' :: (stageHead optional).tail := by decide
  exact Opening.append ⟨'\x7b', _, hhead s.optional, by decide⟩ _

theorem decides_stage {s s' : Stage Expr} (h : Told s.body s'.body) :
    Decides (stageText s) (stageText s') (AgreesStage s s') :=
  (Decides.heads eq_of_stageHead fun _ =>
    h.append closing_stageClose closing_stageClose (.same _)).imp fun _ h => ⟨h.1, h.2.1⟩

theorem told_pipe (ha : Told a a') (h : ∀ s ∈ ss, ∀ s' ∈ ss', Told s.body s'.body) :
    Told (pipe span a ss) (pipe span' a' ss') := by
  refine .of (P := Agrees a a' ∧ List.Forall₂ AgreesStage ss ss' ∧ True) ?_ ?_
  · rw [text_pipe, text_pipe, callOpen_eq, callClose_eq]
    refine .after _ (ha.append (closing_comma _) (closing_comma _) (.after _ ?_))
    exact .row (by decide) (by decide) (fun s _ => opening_stage s) (fun s _ => opening_stage s)
      (fun s hs s' hs' => decides_stage (h s hs s' hs')) (.same [')'])
  · rintro ⟨ha, hss, -⟩ hplaces start
    simp only [compile, ha.compile hplaces.children.head, ha.width,
      compileStages_eq hss hplaces.children.tail]

end Pipes

section Lambdas

theorem told_thunk (ha : Told a a') : Told (lambda span [] a) (lambda span' [] a') := by
  refine .of (P := Agrees a a' ∧ True) ?_ ?_
  · rw [text_thunk, text_thunk]
    exact .after _ (ha.append (closing_paren _) (closing_paren _) (.same _))
  · rintro ⟨ha, -⟩ hplaces start
    simp only [compile, ha.compile hplaces.children.head]

/-- The parameters of a function are numbered, so its head shows how many there are. -/
theorem decides_lambdaHead (m n : Nat) (hpq : Decides p q P) :
    Decides (lambdaHead m ++ p) (lambdaHead n ++ q) (m = n ∧ P) := by
  have hmiddle : ")\x7bscope=[params,[".toList = ')' :: "\x7bscope=[params,[".toList := by decide
  have hlast : "],scope];return ".toList = ']' :: ",scope];return ".toList := by decide
  unfold lambdaHead
  rw [hmiddle, hlast]
  simp only [List.append_assoc, List.cons_append]
  refine .after _ ((decides_positions (by decide) (by decide) (by decide) _ _ (.after _
    (decides_positions (by decide) (by decide) (by decide) _ _ (.after _ hpq)))).imp fun _ h => ?_)
  have hlength := h.1
  rw [List.length_range, List.length_range] at hlength
  exact ⟨hlength, h.2.2⟩

theorem decides_lambdaClose : Decides (lambdaClose ps) (lambdaClose ps')
    (List.Forall₂ (fun p p' => p.text = p'.text) ps ps') := by
  have hclose : "])".toList = [']', ')'] := by decide
  unfold lambdaClose
  rw [hclose, List.append_assoc, List.append_assoc]
  have hopens (p : Name) : Opening (quoted p.text) :=
    List.append_nil (quoted p.text) ▸ opening_quoted p.text []
  exact .after _ ((Decides.row (by decide) (by decide) (fun p _ => hopens p) (fun p _ => hopens p)
    (fun p _ p' _ => decides_quoted p.text p'.text) (.same [')'])).imp fun _ h => h.1)

theorem told_lambda (hps : ps ≠ []) (hps' : ps' ≠ []) (ha : Told a a') :
    Told (lambda span ps a) (lambda span' ps' a') := by
  have hclosing (ps : List Name) : Closing (lambdaClose ps) := by
    refine Closing.append (Closing.append ?_ _) _
    exact closing_of_head? (c := '\x7d') (by decide) (by decide)
  refine .of (P := ps.length = ps'.length ∧ Agrees a a' ∧
    List.Forall₂ (fun p p' => p.text = p'.text) ps ps') ?_ ?_
  · rw [text_lambda hps, text_lambda hps']
    exact decides_lambdaHead _ _ (ha.append (hclosing ps) (hclosing ps') decides_lambdaClose)
  · rintro ⟨hlength, ha, htexts⟩ hplaces start
    have htexts : ps.map (·.text) = ps'.map (·.text) :=
      List.forall₂_eq_eq_eq ▸ List.forall₂_map_left_iff.2 (List.forall₂_map_right_iff.2 htexts)
    have hempty (ps : List Name) (h : ps ≠ []) : ps.isEmpty = false := by simpa using h
    simp only [compile, hempty ps hps, hempty ps' hps', hlength, htexts,
      ha.compile hplaces.children.head]

end Lambdas

section Lets

theorem closing_statementClose : Closing statementClose :=
  closing_of_head? (c := ')') (by decide) (by decide)

theorem decides_declaration {d d' : Declaration Expr} (h : Told d.init d'.init)
    (hpq : Decides p q P) :
    Decides (declarationText d ++ p) (declarationText d' ++ q) (AgreesDeclaration d d' ∧ P) := by
  have hclosing (r : List Char) : Closing (statementClose ++ r) := closing_statementClose.append r
  unfold declarationText
  simp only [List.append_assoc]
  refine (Decides.after _ (h.append (hclosing _) (hclosing _) (.after _ (.after _
    ((decides_quoted d.name.text d'.name.text).append (hclosing _) (hclosing _)
      (.after _ hpq)))))).imp fun _ h => ?_
  exact ⟨⟨h.2.1, h.1⟩, h.2.2⟩

/-- Behind the declarations the body is returned, which is no declaration. -/
theorem decides_declarations (h : ∀ d ∈ ds, ∀ d' ∈ ds', Told d.init d'.init)
    (hpq : Decides p q P) :
    Decides (ds.flatMap declarationText ++ (letReturn ++ p))
      (ds'.flatMap declarationText ++ (letReturn ++ q))
      (List.Forall₂ AgreesDeclaration ds ds' ∧ P) := by
  have hends (d : Declaration Expr) (p q : List Char) {P : Prop} :
      Decides (letReturn ++ p) (declarationText d ++ q) P := by
    obtain ⟨cs, hcs⟩ : ∃ cs, letReturn = 'r' :: cs := ⟨letReturn.tail, by decide⟩
    obtain ⟨ds, hds⟩ : ∃ ds, valueHead = '_' :: ds := ⟨valueHead.tail, by decide⟩
    refine .of_ne fun r r' heq => ?_
    rw [declarationText, hcs, hds] at heq
    exact absurd (List.cons.inj heq).1 (by decide)
  induction ds generalizing ds' with
  | nil =>
    cases ds' with
    | nil => exact (Decides.after _ hpq).imp fun _ h => ⟨.nil, h⟩
    | cons d' ds' =>
      rw [List.flatMap_cons, List.append_assoc]
      exact hends d' _ _
  | cons d ds ih =>
    cases ds' with
    | nil =>
      rw [List.flatMap_cons, List.append_assoc]
      exact (hends d _ _).symm
    | cons d' ds' =>
      rw [List.flatMap_cons, List.flatMap_cons, List.append_assoc, List.append_assoc]
      have hrest := ih fun x hx x' hx' =>
        h x (List.mem_cons_of_mem d hx) x' (List.mem_cons_of_mem d' hx')
      refine (decides_declaration (h d List.mem_cons_self d' List.mem_cons_self) hrest).imp ?_
      rintro - ⟨hd, hds, hP⟩
      exact ⟨.cons hd hds, hP⟩

theorem size_declarationsLayout_eq (h : List.Forall₂ AgreesDeclaration ds ds') :
    Fragment.size (declarationsLayout ds) = Fragment.size (declarationsLayout ds') := by
  have htexts : ds.map declarationText = ds'.map declarationText := by
    induction h with
    | nil => rfl
    | @cons d d' ds ds' hd _ ih =>
      rw [List.map_cons, List.map_cons, ih, declarationText, declarationText, hd.init.text, hd.name]
  rw [Fragment.size_eq_length_join, Fragment.size_eq_length_join, join_declarationsLayout,
    join_declarationsLayout, List.flatMap_def, List.flatMap_def, htexts]

theorem told_letIn (h : ∀ d ∈ ds, ∀ d' ∈ ds', Told d.init d'.init) (ha : Told a a') :
    Told (letIn span ds a) (letIn span' ds' a') := by
  have hclose : Closing letClose := closing_of_head? (c := '\x7d') (by decide) (by decide)
  refine .of (P := List.Forall₂ AgreesDeclaration ds ds' ∧ Agrees a a' ∧ True) ?_ ?_
  · rw [text_letIn, text_letIn]
    exact .after _ (decides_declarations h (ha.append hclose hclose (.same _)))
  · rintro ⟨hds, ha, -⟩ hplaces start
    have hlength : (ds.map (·.init)).length = (ds'.map (·.init)).length := by
      rw [List.length_map, List.length_map, hds.length_eq]
    obtain ⟨hinits, hbody⟩ := SamePlacesAll.append hplaces.children hlength
    simp only [compile, size_declarationsLayout_eq hds, ha.compile hbody.head,
      compileDeclarations_eq hds hinits]

end Lets

end Expr

end ExprLang
