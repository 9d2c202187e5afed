import ExprLang.Proofs.Correspondence.Spellings

/-!
Corresponding code meets where names mean the same, and calls of functions that are alike meet. The
one is by recursion on the correspondence, the other by induction on the depth of calls.
-/
namespace ExprLang

open Value (Like)
open Code (Corresponds CorrespondItems CorrespondEntries CorrespondStages CorrespondSlots)

variable {S : Comparison} {H : Nat → Nat → Prop} {w w' : Store Code Nat} {d : Nat}

namespace Comparison

mutual

theorem runs_exec (hcalls : S.CallsMeetAt d) {k : Nat} {D : NamePairs} {c c' : Code} :
    Corresponds S k D c c' → S.RunsCode d k D c c'
  | .undefined => .undefined
  | .constant => .constant _
  | .lookup hs hx => fun _ _ _ _ _ _ hw henv => henv.lookup hw hs hx
  | .topic hs hx => fun _ _ _ _ _ _ hw henv => henv.topic hw hs hx
  | .named hS ht => fun _ _ _ _ _ _ hw henv => henv.named hw hS ht
  | .unary hs hc => .unary _ hs (runs_exec hcalls hc)
  | .binary hs ha hb => .binary _ hs (runs_exec hcalls ha) (runs_exec hcalls hb)
  | .logical hs ha hb => .logical _ hs (runs_exec hcalls ha) (runs_exec hcalls hb)
  | .coalesce ha hb => .coalesce (runs_exec hcalls ha) (runs_exec hcalls hb)
  | .conditional ha hb hc =>
    .conditional (runs_exec hcalls ha) (runs_exec hcalls hb) (runs_exec hcalls hc)
  | .object hes => .object (runs_execEntries hcalls hes)
  | .array hcs => .array (runs_execItems hcalls hcs)
  | .property hs ha hb => .property hs (runs_exec hcalls ha) (runs_exec hcalls hb)
  | .callBare hs hc => .callBare hcalls hs (runs_exec hcalls hc)
  | .call hs hc hcs => .call hcalls hs (runs_exec hcalls hc) (runs_execItems hcalls hcs)
  | .curry hs hc hcs => .curry hs (runs_exec hcalls hc) (runs_execSlots hcalls hcs)
  | .pipe hs hc hss => .pipe hs (runs_exec hcalls hc) hss.optionals (runs_execStage hcalls hss)
  | .lambda hc => fun _ _ _ _ _ _ hw henv => .newFunction hw (.lambda hc henv)
  | .letIn ha hb => .letIn (runs_exec hcalls ha) (runs_exec hcalls hb)
  | .applied hS ha hb => .applied hS (runs_exec hcalls ha) (runs_exec hcalls hb)
  | .piped hS ha hb => .piped hS (runs_exec hcalls ha) (runs_exec hcalls hb)
  | .spelt hS hnames hc harguments hcs =>
    .spelt hS hnames (runs_exec hcalls hc) harguments (runs_bindings hcalls hcs)

theorem runs_execItems (hcalls : S.CallsMeetAt d) {k : Nat} {D : NamePairs}
    {cs cs' : List (Option Code)} : CorrespondItems S k D cs cs' → S.RunsItems d k D cs cs'
  | .nil => runsItems_nil
  | .none hcs => runsItems_none (runs_execItems hcalls hcs)
  | .some hc hcs => runsItems_some (runs_exec hcalls hc) (runs_execItems hcalls hcs)

theorem runs_execSlots (hcalls : S.CallsMeetAt d) {k : Nat} {D : NamePairs}
    {cs cs' : List (Option Code)} : CorrespondItems S k D cs cs' → S.RunsSlots d k D cs cs'
  | .nil => runsSlots_nil
  | .none hcs => runsSlots_none (runs_execSlots hcalls hcs)
  | .some hc hcs => runsSlots_some (runs_exec hcalls hc) (runs_execSlots hcalls hcs)

theorem runs_execEntries (hcalls : S.CallsMeetAt d) {k : Nat} {D : NamePairs}
    {es es' : List (String × Code)} : CorrespondEntries S k D es es' → S.RunsEntries d k D es es'
  | .nil => runsEntries_nil
  | .cons hc hes => runsEntries_cons _ (runs_exec hcalls hc) (runs_execEntries hcalls hes)

theorem runs_execStage (hcalls : S.CallsMeetAt d) {k : Nat} {D : NamePairs}
    {ss ss' : List (Bool × Code)} :
    CorrespondStages S k (D.bind [topicName] [topicName]) ss ss' → S.RunsStages d k D ss ss'
  | .nil => runsStages_nil
  | .cons hc hss => runsStages_cons _ (runs_exec hcalls hc) (runs_execStage hcalls hss)

theorem runs_bindings (hcalls : S.CallsMeetAt d) {k : Nat} {D : NamePairs}
    {cs : List (Option Code)} {names : List String} {last inner : Code} :
    CorrespondSlots S k D cs names last inner → S.RunsBindings d k D cs names last inner
  | .nil => runsBindings_nil
  | .missing hcs => runsBindings_missing (runs_bindings hcalls hcs)
  | .given hc hcs => runsBindings_given (runs_exec hcalls hc) (runs_bindings hcalls hcs)

end

theorem fill_like {V : Value → Value → Prop} (hundefined : V .undefined .undefined)
    {slots slots' : List (Option Value)} (hslots : List.Forall₂ (Option.Rel V) slots slots')
    {vs vs' : List Value} (hvs : List.Forall₂ V vs vs') :
    List.Forall₂ V (Eval.fill slots vs) (Eval.fill slots' vs') := by
  induction hslots generalizing vs vs' with
  | nil => exact .nil
  | cons hslot _ ih =>
    cases hslot with
    | some hv => exact .cons hv (ih hvs)
    | none =>
      cases hvs with
      | nil => exact .cons hundefined (ih .nil)
      | cons hv hvs => exact .cons hv (ih hvs)

/-- A call of functions that are alike. Its body may use up the slack of one call. -/
theorem meet_enter (hcalls : S.CallsMeetAt d) {e : Nat} (hw : S.StoreLike H w w')
    {c c' : Callable Code Nat} (hc : S.CallableLike H c c') {h h' : Nat} (hh : H h h')
    {vs vs' : List Value} (hvs : List.Forall₂ (Like S.references H) vs vs') :
    S.MeetAt d S.slack e H (fun H => Like S.references H)
      (Eval.enter Code.run (Code.caller d) h vs c) (Eval.enter Code.run (Code.caller e) h' vs' c')
      w w' := by
  cases hc with
  | @host name f f' hS hf =>
    obtain ⟨hf⟩ := hf
    have halike := hf H (le_refl H) hw.unique vs vs' (S.references_eq hS ▸ hvs)
    have hnoted := hw.noteHost hh name hS hvs
    refine (meet_perform hS (hcalls.reaches S.slack e) halike hnoted).mono fun H' r r' hr => ?_
    exact (outcomesLike_iff hS r r').2 hr
  | lambda hbody henv => exact runs_exec hcalls hbody hw (henv.bind _ _ hvs)
  | curried hs hc hc' hcallee hslots =>
    exact meet_callThrough (hcalls.reaches S.slack e) hw hs hc hc' hcallee
      (fill_like (.simple rfl) hslots hvs)
  | spelt hS hc hc' hnames harguments hg hcallee hslots =>
    exact meet_spelt hcalls hw hc hc' hS hnames harguments hg hcallee hslots hvs

theorem caller_of_not_function (d : Nat) {f : Value} (hf : f.isFunction = false)
    (vs : List Value) :
    Code.caller (d + 1) f vs = throw (.new (.unexpectedType ["function"] f)) := by
  cases f with
  | function h => cases hf
  | _ => rfl

theorem Reaches.enter {e : Nat} (h : S.Reaches (d + 1) 0 (e + 1)) : S.Reaches d S.slack e := by
  unfold Reaches at h ⊢
  rw [Nat.mul_succ] at h
  omega

/-- Calls meet at every depth. -/
theorem callsMeetAt (d : Nat) : S.CallsMeetAt d := by
  induction d with
  | zero =>
    rintro e H f f' vs vs' w w' - - - (⟨-, hx⟩ | ⟨he, hy⟩)
    · cases hx
    · obtain rfl := Nat.le_zero.1 he
      cases hy
  | succ d ih =>
    intro e H f f' vs vs' w w' hw hf hvs
    cases e with
    | zero =>
      rintro (⟨hA, -⟩ | ⟨-, hy⟩)
      · exact absurd hA (Nat.not_le_of_gt (Nat.mul_pos (Nat.succ_pos _) (Nat.succ_pos _)))
      · cases hy
    | succ e =>
      by_cases hfunction : f.isFunction = false
      · have hfunction' : f'.isFunction = false := hf.isFunction ▸ hfunction
        rw [caller_of_not_function d hfunction, caller_of_not_function e hfunction']
        exact .throw hw ⟨.unexpectedType hf, fun _ => rfl⟩
      · cases hf with
        | simple h => cases f <;> first | exact absurd rfl hfunction | cases h
        | array | object => exact absurd rfl hfunction
        | @function i i' hi =>
          obtain ⟨c, c', hc, hc', hlike⟩ := hw.functions hi
          unfold MeetValue MeetEval
          rw [Code.caller, Code.caller, Eval.call_function _ d i vs hc,
            Eval.call_function _ e i' vs' hc']
          exact (meet_enter ih hw hlike hi hvs).weaken Reaches.enter Nat.le_of_succ_le_succ

end Comparison

end ExprLang
