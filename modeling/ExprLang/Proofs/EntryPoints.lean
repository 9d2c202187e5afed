import ExprLang.Expression
import ExprLang.Proofs.Nesting
import ExprLang.Proofs.Shapes

/-!
The two ways of compiling a text. They tell the same, each in its own form: a reading that makes no
tree has found an error, and a parsed tree never has the one fault that is not an error of its text.
-/
namespace ExprLang

namespace ErrorLog

theorem kept_foldl (text : String) (fs : List Finding) (log : ErrorLog) :
    (fs.foldl (fun log f => log.push (.ofFinding text f)) log).kept =
      log.kept ++ (fs.take (limit - log.kept.length)).map (.ofFinding text) := by
  induction fs generalizing log with
  | nil => simp
  | cons f fs ih =>
    rw [List.foldl_cons, ih]
    by_cases hroom : log.kept.length < limit
    · have hkept : (log.push (.ofFinding text f)).kept = log.kept ++ [.ofFinding text f] :=
        if_pos hroom
      have htake : limit - log.kept.length = limit - (log.kept.length + 1) + 1 := by omega
      rw [hkept, List.length_append, List.length_singleton, htake, List.take_succ_cons,
        List.map_cons, List.append_assoc, List.singleton_append]
    · have hkept : (log.push (.ofFinding text f)).kept = log.kept := if_neg hroom
      have htake : limit - log.kept.length = 0 := by omega
      rw [hkept, htake, List.take_zero, List.take_zero]

/-- The errors that are kept are the first ones. -/
theorem kept_ofFindings (text : String) (fs : List Finding) :
    (ofFindings text fs).kept = (fs.take limit).map (.ofFinding text) :=
  kept_foldl text fs empty

theorem exists_kept (text : String) {fs : List Finding} (h : fs ≠ []) :
    ∃ e es, (ofFindings text fs).kept = e :: es ∧ (e :: es).length ≤ limit := by
  obtain ⟨f, fs, rfl⟩ := List.exists_cons_of_ne_nil h
  have hkept := kept_ofFindings text (f :: fs)
  refine ⟨_, _, hkept, (congrArg List.length hkept).symm.trans_le ?_⟩
  rw [hkept, List.length_map]
  exact List.length_take_le _ _

end ErrorLog

namespace Expr

theorem ofTokens_or (ts : List Token) :
    (∃ e, ofTokens ts = ⟨some e, []⟩) ∨ (ofTokens ts).findings ≠ [] := by
  rw [or_iff_not_imp_right, not_not]
  unfold ofTokens
  cases parser maxNesting (.ofTokens ts) with
  | error f => exact fun h => nomatch h
  | ok out =>
    cases hdeep : out.1.deeperThan? maxHeight with
    | some node => simp [hdeep]
    | none =>
      simp only [hdeep]
      exact fun h => ⟨out.1, by rw [h]⟩

/-- A text that gives no tree gives an error. -/
theorem exists_findings_of_parse {text : String} {log : ErrorLog} (h : parse text = .error log) :
    ∃ fs, fs ≠ [] ∧ log = .ofFindings text fs := by
  simp only [parse] at h
  split at h
  · rcases ofTokens_or (lex text).tokens with ⟨e, htokens⟩ | hfindings
    · rw [htokens] at h
      cases h
    · refine ⟨_, hfindings, ?_⟩
      split at h
      · cases h
      · rename_i htokens
        cases h
        rw [htokens]
  · rename_i hfindings
    cases h
    exact ⟨_, fun hnil => hfindings (List.isEmpty_iff.2 hnil), rfl⟩

section Faults

theorem findFault?_cons (e : Expr) (es : List Expr) :
    (e :: es).findSome? fault? = e.fault?.or (es.findSome? fault?) := by
  rw [List.findSome?_cons]
  cases e.fault? <;> rfl

theorem propertiesFault?_eq (ps : List (Property Expr)) :
    propertiesFault? ps = (ps.map (·.value)).findSome? fault? := by
  induction ps with
  | nil => rfl
  | cons p ps ih => rw [propertiesFault?, ih, List.map_cons, findFault?_cons]

theorem elementsFault?_eq (es : List (Option Expr)) :
    elementsFault? es = (es.filterMap id).findSome? fault? := by
  induction es with
  | nil => rfl
  | cons o es ih =>
    cases o with
    | none => exact ih
    | some e => exact (congrArg _ ih).trans (findFault?_cons e _).symm

theorem argumentsFault?_eq (as : List (Argument Expr)) :
    argumentsFault? as = (as.filterMap (·.value?)).findSome? fault? := by
  induction as with
  | nil => rfl
  | cons a as ih =>
    cases a with
    | placeholder span => exact ih
    | value e => exact (congrArg _ ih).trans (findFault?_cons e _).symm

theorem stagesFault?_eq (ss : List (Stage Expr)) :
    stagesFault? ss = (ss.map (·.body)).findSome? fault? := by
  induction ss with
  | nil => rfl
  | cons s ss ih => rw [stagesFault?, ih, List.map_cons, findFault?_cons]

theorem declarationsFault?_eq (ds : List (Declaration Expr)) :
    declarationsFault? ds = (ds.map (·.init)).findSome? fault? := by
  induction ds with
  | nil => rfl
  | cons d ds ih => rw [declarationsFault?, ih, List.map_cons, findFault?_cons]

/-- What is wrong with a node by itself. -/
def ownFault? : Expr → Option TreeFault
  | .member _ _ key false _ => if key.isIdentifier then none else some .propertyNotName
  | .letIn _ declarations _ => declarationFault? declarations
  | _ => none

variable {e : Expr} {f : TreeFault}

/-- A fault of a tree is one of its root or one of a child. -/
theorem fault?_own_or_child (h : e.fault? = some f) :
    e.ownFault? = some f ∨ ∃ c ∈ e.children, c.fault? = some f := by
  cases e with
  | literal | identifier | topic => cases h
  | unary _ _ argument | lambda _ _ argument => exact .inr ⟨_, List.mem_singleton_self _, h⟩
  | binary _ _ left right | logical _ _ left right | coalesce _ left right =>
    refine .inr (List.exists_of_findSome?_eq_some (l := [left, right]) ?_)
    rw [findFault?_cons, findFault?_cons, List.findSome?_nil, Option.or_none]
    exact h
  | conditional _ test consequent alternate =>
    refine .inr (List.exists_of_findSome?_eq_some (l := test :: consequent :: alternate.toList) ?_)
    rw [findFault?_cons, findFault?_cons]
    cases alternate with
    | none => exact h
    | some e => rwa [Option.toList_some, findFault?_cons, List.findSome?_nil, Option.or_none]
  | object _ ps =>
    rw [fault?, propertiesFault?_eq] at h
    exact .inr (List.exists_of_findSome?_eq_some h)
  | array _ es =>
    rw [fault?, elementsFault?_eq] at h
    exact .inr (List.exists_of_findSome?_eq_some h)
  | member _ target key computed _ =>
    rcases Option.or_eq_some_iff.1 h with h | ⟨-, h⟩
    · exact .inr ⟨target, List.mem_cons_self, h⟩
    · cases computed with
      | true => exact .inr ⟨key, List.mem_cons_of_mem _ List.mem_cons_self, h⟩
      | false => exact .inl h
  | call _ callee as =>
    rw [fault?, argumentsFault?_eq, ← findFault?_cons] at h
    exact .inr (List.exists_of_findSome?_eq_some h)
  | pipe _ head ss =>
    rw [fault?, stagesFault?_eq, ← findFault?_cons] at h
    exact .inr (List.exists_of_findSome?_eq_some h)
  | letIn _ ds body =>
    rcases Option.or_eq_some_iff.1 h with h | ⟨-, h⟩
    · exact .inl h
    · rw [declarationsFault?_eq] at h
      refine .inr ?_
      rcases Option.or_eq_some_iff.1 h with h | ⟨-, h⟩
      · obtain ⟨c, hc, hf⟩ := List.exists_of_findSome?_eq_some h
        exact ⟨c, List.mem_append_left _ hc, hf⟩
      · exact ⟨body, List.mem_append_right _ (List.mem_singleton_self body), h⟩

/-- A tree has no faults but those of its nodes. -/
theorem exists_ownFault? {e : Expr} (h : e.fault? = some f) :
    ∃ n, e.HasNode n ∧ n.ownFault? = some f := by
  rcases fault?_own_or_child h with hown | ⟨c, hc, hf⟩
  · exact ⟨e, e.hasNode_root, hown⟩
  · obtain ⟨n, ⟨path, hn⟩, hown⟩ := exists_ownFault? hf
    obtain ⟨i, hi⟩ := List.getElem?_of_mem hc
    exact ⟨n, ⟨i :: path, by rw [at?, hi]; exact hn⟩, hown⟩
termination_by e.height
decreasing_by exact height_lt hc

end Faults

/-- The parser gives names only to accesses that are not computed. -/
theorem ownFault?_ne_of_spells {us : List Sign} {e : Expr} (h : Spells us e) :
    e.ownFault? ≠ some .propertyNotName := by
  induction h with
  | group _ _ _ ih => exact ih
  | infixed op => cases op <;> exact nofun
  | letIn =>
    intro hown
    obtain ⟨n, -, hn⟩ := Option.map_eq_some_iff.1 hown
    cases hn
  | _ => exact nofun

theorem rejection?_ne_of_parse {text : String} {e : Expr} (h : parse text = .ok e) :
    e.rejection? ≠ some .propertyNotName := by
  obtain ⟨us, -, -, -, -, hspells⟩ := spells_of_parse h
  unfold rejection?
  split
  · exact nofun
  · intro hfault
    obtain ⟨n, ⟨path, hn⟩, hown⟩ := exists_ownFault? hfault
    obtain ⟨vs, -, hfits⟩ := (Fits.spells hspells).exists_of_at? hn
    cases hfits with
    | spells hspells => exact ownFault?_ne_of_spells hspells hown
    | name => cases hown

end Expr

/-- The two ways of compiling agree on every text. A compilation either succeeds both ways, with
the same listing and table, or fails both ways for an error of the text, which is the first of the
errors that are listed; there are never more of these than are kept, and never another failure. -/
theorem compile_agrees (source : String) (options : Options) :
    (∃ x, Expression.compile source options = .ok x ∧
      CompileResult.compile source options = ⟨true, [], some x.listing, some x.table, none⟩) ∨
    ∃ e es, Expression.compile source options = .error (.found e) ∧
      CompileResult.compile source options = ⟨false, e :: es, none, none, none⟩ ∧
      (e :: es).length ≤ 20 := by
  unfold Expression.compile CompileResult.compile CompileResult.ofTree
  cases hparse : Expr.parse source with
  | ok tree =>
    have hnamed := Expr.rejection?_ne_of_parse hparse
    dsimp only
    unfold Expression.ofTree
    rcases hrejection : tree.rejection? with _ | f | _
    · exact .inl ⟨_, rfl, rfl⟩
    · exact .inr ⟨_, [], rfl, rfl, Nat.le_add_left 1 19⟩
    · exact absurd hrejection hnamed
  | error log =>
    obtain ⟨fs, hfs, rfl⟩ := Expr.exists_findings_of_parse hparse
    obtain ⟨e, es, hkept, hlength⟩ := ErrorLog.exists_kept source hfs
    refine .inr ⟨e, es, ?_, ?_, hlength⟩
    · simp only [ErrorLog.first?, hkept, List.head?_cons]
    · simp only [hkept, CompileResult.failed]

end ExprLang
