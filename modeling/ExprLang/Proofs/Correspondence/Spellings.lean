import ExprLang.Proofs.Correspondence.Rules

/-!
Calls with placeholders spelt out: the callee and the given arguments are bound to names, and a
function with one parameter for each missing argument passes all of them on.
-/
namespace ExprLang

open Value (Like)

variable {S : Comparison} {H : Nat → Nat → Prop} {D : NamePairs} {w w' : Store Code Nat}
  {env env' : Env} {d e k s s' t : Nat} {c c' inner : Code} {cs : List (Option Code)}
  {names : List String} {n : String}

namespace Env

theorem lookup?_push_self (env : Env) (n : String) (v : Value) :
    (env.push ⟨[n], [v]⟩).scope.lookup? n = some v := by
  have hbind := env.lookup?_bind [n] [v] n
  rwa [List.idxOf?_cons, if_pos (beq_self_eq_true n)] at hbind

theorem lookup?_push_of_ne (env : Env) {m n : String} (h : m ≠ n) (v : Value) :
    (env.push ⟨[n], [v]⟩).scope.lookup? m = env.scope.lookup? m := by
  have hbind := env.lookup?_bind [n] [v] m
  rwa [List.idxOf?_eq_none_iff.2 (by simpa using h)] at hbind

end Env

theorem missingNames_sublist {β : Type} (slots : List (Option β)) (names : List String) :
    List.Sublist (missingNames slots names) names := by
  induction slots generalizing names with
  | nil => exact List.nil_sublist names
  | cons slot slots ih =>
    cases names with
    | nil => cases slot <;> exact List.Sublist.slnil
    | cons n names =>
      cases slot with
      | none => exact (ih names).cons_cons n
      | some _ => exact (ih names).cons n

/-- A name of a list without repetitions stands at the position where it is found. -/
theorem idxOf?_of_getElem? {names : List String} (hnames : names.Nodup) {i : Nat} {n : String}
    (h : names[i]? = some n) : names.idxOf? n = some i := by
  induction names generalizing i with
  | nil => cases h
  | cons m names ih =>
    obtain ⟨hm, hnames⟩ := List.nodup_cons.1 hnames
    cases i with
    | zero =>
      cases Option.some.inj h
      rw [List.idxOf?_cons, if_pos (beq_self_eq_true _)]
    | succ i =>
      have hne : m ≠ n := fun hmn => hm (hmn ▸ List.mem_of_getElem? h)
      rw [List.idxOf?_cons, if_neg (by simpa using hne), ih hnames h]
      rfl

namespace Comparison

/-- Where the missing names stand for the arguments of a call and the other ones for what was given
before, all names together stand for the arguments that a call with placeholders passes on. -/
theorem SlotsLike.fill {slots : List (Option Value)} (h : S.SlotsLike H env' slots names)
    (hnames : names.Nodup) {inner : Env}
    (hgiven : ∀ n ∈ names, n ∉ missingNames slots names →
      inner.scope.lookup? n = env'.scope.lookup? n)
    {vs vs' : List Value}
    (hmissing : ∀ (i : Nat) (n : String), (missingNames slots names)[i]? = some n →
      inner.scope.lookup? n = some (vs'[i]?.getD .undefined))
    (hvs : List.Forall₂ (Like S.references H) vs vs') :
    ∃ us, List.Forall₂ (Like S.references H) (Eval.fill slots vs) us ∧
      List.Forall₂ (fun n u => inner.scope.lookup? n = some u) names us := by
  induction h generalizing vs vs' with
  | nil => exact ⟨[], .nil, .nil⟩
  | @missing n slots names _ ih =>
    obtain ⟨hn, hnames⟩ := List.nodup_cons.1 hnames
    have hhead := hmissing 0 n rfl
    have hrest : ∀ m ∈ names, m ∉ missingNames slots names →
        inner.scope.lookup? m = env'.scope.lookup? m := fun m hm hnot =>
      hgiven m (List.mem_cons_of_mem n hm) (List.not_mem_cons_of_ne_of_not_mem
        (fun hmn => hn (hmn ▸ hm)) hnot)
    cases hvs with
    | nil =>
      obtain ⟨us, hus, hlookup⟩ := ih hnames hrest (fun i m hi => hmissing (i + 1) m hi) .nil
      exact ⟨_ :: us, .cons (.simple rfl) hus, .cons hhead hlookup⟩
    | cons hv hvs =>
      obtain ⟨us, hus, hlookup⟩ := ih hnames hrest (fun i m hi => hmissing (i + 1) m hi) hvs
      exact ⟨_ :: us, .cons hv hus, .cons hhead hlookup⟩
  | @given n v v' slots names hlookup hv _ ih =>
    obtain ⟨hn, hnames⟩ := List.nodup_cons.1 hnames
    have hhead : inner.scope.lookup? n = some v' :=
      (hgiven n List.mem_cons_self fun hmem =>
        hn ((missingNames_sublist slots names).subset hmem)).trans hlookup
    obtain ⟨us, hus, hlookups⟩ := ih hnames
      (fun m hm hnot => hgiven m (List.mem_cons_of_mem n hm) hnot) hmissing hvs
    exact ⟨v' :: us, .cons hv hus, .cons hhead hlookups⟩

theorem execItems_lookups (call : Caller Code) {inner : Env} {arguments : List (Option Code)}
    {us : List Value} (harguments : List.Forall₂ LooksUp names arguments)
    (hus : List.Forall₂ (fun n u => inner.scope.lookup? n = some u) names us) :
    Code.execItems call inner arguments = pure us := by
  induction harguments generalizing us with
  | nil =>
    cases hus
    rfl
  | cons ha _ ih =>
    obtain ⟨⟩ := ha
    cases hus with
    | cons hu hus => simp only [Code.execItems, Code.exec, Eval.lookup, hu, ih hus, pure_bind]

/-- The function that passes everything on does what the call with placeholders does. -/
theorem meet_spelt (hcalls : S.CallsMeetAt d) (hw : S.StoreLike H w w') {site : Nat} {x : Context}
    {callee callee' : Value} {slots : List (Option Value)} {g : String}
    {arguments : List (Option Code)} (hx : x.policy = .standard)
    (henv' : env'.context.policy = .standard) (hS : ¬ S.strict) (hnames : (g :: names).Nodup)
    (harguments : List.Forall₂ LooksUp names arguments)
    (hg : env'.scope.lookup? g = some callee') (hcallee : Like S.references H callee callee')
    (hslots : S.SlotsLike H env' slots names) {vs vs' : List Value}
    (hvs : List.Forall₂ (Like S.references H) vs vs') :
    S.MeetAt d k e H (fun H => Like S.references H)
      (Eval.callThrough (Code.caller d) site x callee (some (Eval.fill slots vs)))
      ((Code.call s' (.lookup t g) arguments).exec (Code.caller e)
        (env'.bind (missingNames slots names) vs')) w w' := by
  obtain ⟨hgnot, hnodup⟩ := List.nodup_cons.1 hnames
  have hsub := missingNames_sublist slots names
  have hkept : ∀ n, n ∉ missingNames slots names →
      (env'.bind (missingNames slots names) vs').scope.lookup? n = env'.scope.lookup? n := by
    intro n hn
    rw [Env.lookup?_bind, List.idxOf?_eq_none_iff.2 hn]
    rfl
  have hmissing : ∀ (i : Nat) (n : String), (missingNames slots names)[i]? = some n →
      (env'.bind (missingNames slots names) vs').scope.lookup? n =
        some (vs'[i]?.getD .undefined) := by
    intro i n hn
    rw [Env.lookup?_bind, idxOf?_of_getElem? (hnodup.sublist hsub) hn]
    rfl
  obtain ⟨us, hus, hlookups⟩ := hslots.fill hnodup (fun n _ => hkept n) hmissing hvs
  have hcall := (hkept g fun hmem => hgnot (hsub.subset hmem)).trans hg
  simp only [Code.exec, Eval.lookup, hcall, execItems_lookups _ harguments hlookups, pure_bind]
  rw [Env.bind_context]
  exact meet_callThrough (hcalls.reaches k e) hw (fun h => absurd h hS) hx henv' hcallee hus

/-- What is done once the given arguments are bound and the missing ones left open. -/
def SlotsEnd (S : Comparison) (d k e : Nat) (H : Nat → Nat → Prop) (env' : Env)
    (cs : List (Option Code)) (names : List String)
    (next : List (Option Value) → Eval Code Value) (last : Code) : Prop :=
  ∀ ⦃H' slots inner u u'⦄, H ≤ H' → S.StoreLike H' u u' → S.SlotsLike H' inner slots names →
    inner.context = env'.context →
    (∀ n, n ∉ names → inner.scope.lookup? n = env'.scope.lookup? n) →
    missingNames slots names = missingNames cs names →
    S.MeetAt d k e H' (fun H => Like S.references H) (next slots)
      (last.exec (Code.caller e) inner) u u'

/-- The second run binds the given arguments one after the other. -/
def RunsBindings (S : Comparison) (d k : Nat) (D : NamePairs) (cs : List (Option Code))
    (names : List String) (last inner : Code) : Prop :=
  ∀ ⦃e : Nat⦄ ⦃H : Nat → Nat → Prop⦄ ⦃env env' : Env⦄ ⦃w w' : Store Code Nat⦄
    ⦃next : List (Option Value) → Eval Code Value⦄, names.Nodup → S.StoreLike H w w' →
    S.EnvLike H D env env' → S.SlotsEnd d k e H env' cs names next last →
    S.MeetAt d k e H (fun H => Like S.references H)
      (do next (← Code.execSlots (Code.caller d) env cs)) (inner.exec (Code.caller e) env') w w'

theorem runsBindings_nil : S.RunsBindings d k D [] [] inner inner := by
  intro e H env env' w w' next _ hw _ hend
  rw [Code.execSlots, pure_bind]
  exact hend (le_refl H) hw .nil rfl (fun _ _ => rfl) rfl

theorem runsBindings_missing (hcs : S.RunsBindings d k D cs names inner c') :
    S.RunsBindings d k D (none :: cs) (n :: names) inner c' := by
  intro e H env env' w w' next hnames hw henv hend
  simp only [Code.execSlots, bind_assoc, pure_bind]
  refine hcs hnames.of_cons hw henv ?_
  intro H' slots env₁ u u' hle hu hslots hcontext hkept hmissing
  exact hend hle hu (.missing hslots) hcontext
    (fun m hm => hkept m fun hmem => hm (List.mem_cons_of_mem n hmem))
    (congrArg (n :: ·) hmissing)

theorem runsBindings_given {a' : Code} (hc : S.RunsCode d k D c a')
    (hcs : S.RunsBindings d k (D.bind [] [n]) cs names inner c') :
    S.RunsBindings d k D (some c :: cs) (n :: names) inner (.letIn n a' c') := by
  intro e H env env' w w' next hnames hw henv hend
  simp only [Code.execSlots, bind_assoc, pure_bind]
  refine (hc hw henv).bind fun H₁ v v' u u' hle hu hv => ?_
  obtain ⟨hn, hnodup⟩ := List.nodup_cons.1 hnames
  refine hcs hnodup hu ((henv.mono hle).pushRight n v') ?_
  intro H' slots env₁ t t' hle' ht hslots hcontext hkept hmissing
  have hgiven := (hkept n hn).trans (env'.lookup?_push_self n v')
  refine hend (hle.trans hle') ht (.given hgiven (hv.mono hle') hslots) hcontext ?_ hmissing
  intro m hm
  obtain ⟨hne, hm⟩ := not_or.1 (List.mem_cons.not.1 hm)
  exact (hkept m hm).trans (env'.lookup?_push_of_ne hne v')

theorem RunsCode.spelt {g : String} {arguments : List (Option Code)} (hS : ¬ S.strict)
    (hnames : (g :: names).Nodup) (hc : S.RunsCode d k D c c')
    (harguments : List.Forall₂ LooksUp names arguments)
    (hcs : S.RunsBindings d k (D.bind [] [g]) cs names
      (.lambda (missingNames cs names) (.call s' (.lookup t g) arguments)) inner) :
    S.RunsCode d k D (.curry s c cs) (.letIn g c' inner) := by
  intro e H env env' w w' hw henv
  refine (hc hw henv).bind fun H₁ f f' u u' hle hu hf => ?_
  obtain ⟨hg, hnodup⟩ := List.nodup_cons.1 hnames
  refine hcs hnodup hu ((henv.mono hle).pushRight g f') ?_
  intro H' slots env₁ r r' hle' hr hslots hcontext hkept hmissing
  have hpolicy : env₁.context.policy = .standard := hcontext ▸ henv.policy'
  have hcallee := (hkept g hg).trans (env'.lookup?_push_self g f')
  rw [Code.exec, ← hmissing]
  exact .newFunction hr
    (.spelt hS henv.policy hpolicy hnames harguments hcallee (hf.mono hle') hslots)

end Comparison

end ExprLang
