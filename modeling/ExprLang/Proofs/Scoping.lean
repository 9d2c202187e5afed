import ExprLang.Proofs.Scoping.Agreement
import ExprLang.Proofs.Scoping.Shadowing

/-!
Scoping is lexical. Wherever and whenever a node is evaluated, by an evaluation or by a later call
of a function that one has made, its scope has the frames that its position in the tree gives it.
-/
namespace ExprLang

open ExprLang.Expr

/-- The functions of a probed run as a run of code has them. -/
def Store.coded (w : Store Spot Nat) : Store Code Nat := w.placedSpots.code

/-- An evaluation of a tree with a probe at every node. -/
def Expr.evaluateProbed (probe : Probe) (tree : Expr) (options : Options) (depth : Nat)
    (data : Option Value) (w : Store Spot Nat) : Option (Except Fault Value) × Store Spot Nat :=
  let context : Context := ⟨options.policy, options.globals, data⟩
  (Spot.eval probe depth (.ofContext context) ⟨⟨tree, context, []⟩, tree, 0⟩).run w

namespace Probed

variable {α : Type}

theorem run_code {m : Eval Spot α} {n : Eval Placed α} {c : Eval Code α} (h : Probed m n)
    (hc : Same n c) {w : Store Spot Nat} (hw : w.All Callable.Lexical) :
    c.run w.coded = ((m.run w).1, (m.run w).2.coded) ∧ (m.run w).2.All Callable.Lexical := by
  obtain ⟨hrun, hall⟩ := h.run_eq hw
  refine ⟨?_, hall⟩
  rw [Store.coded, hc.run_eq w.placedSpots, hrun]
  rfl

end Probed

section

variable {tree : Expr} {source : String} {options : Options} {x : Expression} {probe : Probe}

theorem evaluate_probed (hx : Expression.ofTree tree source options = .ok x)
    (hprobe : probe.Silent) {w : Store Spot Nat} (hw : w.All Callable.Lexical) (depth : Nat)
    (data : Option Value) :
    x.evaluate depth data w.coded =
        ((tree.evaluateProbed probe options depth data w).1.map (·.mapError x.explain),
          (tree.evaluateProbed probe options depth data w).2.coded) ∧
      (tree.evaluateProbed probe options depth data w).2.All Callable.Lexical := by
  have hencloses : Spot.Encloses ⟨⟨tree, ⟨options.policy, options.globals, data⟩, []⟩, tree, 0⟩
      (.ofContext ⟨options.policy, options.globals, data⟩) := ⟨rfl, rfl, rfl⟩
  obtain ⟨hrun, hall⟩ := (probed_eval hprobe (probed_caller hprobe depth) tree 0 hencloses).run_code
    (same_compile (same_call depth) _ tree 0) hw
  refine ⟨?_, hall⟩
  unfold Expression.evaluate Code.eval Code.run
  rw [Expression.code_ofTree hx, Expression.env_ofTree hx data]
  exact congrArg (Prod.map (Option.map (Except.mapError x.explain)) id) hrun

theorem caller_probed (hprobe : probe.Silent) {w : Store Spot Nat} (hw : w.All Callable.Lexical)
    (depth : Nat) (f : Value) (vs : List Value) :
    (Code.caller depth f vs).run w.coded =
        (((Spot.caller probe depth f vs).run w).1, ((Spot.caller probe depth f vs).run w).2.coded) ∧
      ((Spot.caller probe depth f vs).run w).2.All Callable.Lexical :=
  (probed_caller hprobe depth f vs).run_code (same_call depth f vs) hw

end

namespace Spot.Encloses

variable {s : Spot} {env : Env}

/-- Inside an initial value the scope consists of what that value adds, the declarations before it
and what surrounds the binding; its own name and later ones are not looked for among the
declarations. -/
theorem scope_eq_of_init (h : s.Encloses env) (hfault : s.post.root.fault? = none)
    {path inner : List Nat} {i : Nat} {span : Span} {ds : List (Declaration Expr)}
    {d : Declaration Expr} {body : Expr} (hpath : s.post.path = path ++ i :: inner)
    (hlet : s.post.root.at? path = some (.letIn span ds body)) (hd : ds[i]? = some d) :
    ∃ own earlier outer, env.scope = own ++ (earlier ++ outer) ∧
      own.map (·.names) = d.init.framesAt inner ∧
      earlier.map (·.names) = ((ds.take i).map fun d => [d.name.text]).reverse ∧
      outer.map (·.names) = s.post.root.framesAt path ∧
      ∀ e ∈ ds.drop i,
        env.scope.lookup? e.name.text = Scope.lookup? (own ++ outer) e.name.text := by
  have hchild : (Expr.letIn span ds body).children[i]? = some d.init := by
    have hi := (List.getElem?_eq_some_iff.1 hd).1
    rw [children, List.getElem?_append_left (by rwa [List.length_map]), List.getElem?_map, hd]
    rfl
  have hnames := h.names
  rw [hpath, framesAt_append hlet, framesAt, hchild, Option.elim_some, List.append_assoc] at hnames
  obtain ⟨own, rest, hscope, hown, hrest⟩ := List.map_eq_append_iff.1 hnames
  obtain ⟨earlier, outer, rfl, hearlier, houter⟩ := List.map_eq_append_iff.1 hrest
  refine ⟨own, earlier, outer, hscope, hown, hearlier, houter, fun e he => ?_⟩
  have hnone : Scope.lookup? earlier e.name.text = none := by
    rw [Scope.lookup?_eq_none_iff, hearlier]
    intro ns hns hmem
    obtain ⟨a, ha, rfl⟩ := List.mem_map.1 (List.mem_reverse.1 hns)
    have hnodup := nodup_of_fault? (fault?_at hfault hlet)
    rw [← List.take_append_drop i ds, List.map_append, List.nodup_append] at hnodup
    exact hnodup.2.2 _ (List.mem_map_of_mem ha) _ (List.mem_map_of_mem he)
      (List.mem_singleton.1 hmem).symm
  rw [hscope, Scope.lookup?_append, Scope.lookup?_append, hnone, Option.none_or,
    Scope.lookup?_append]

/-- In a tree that binds no name like it, a topic has a value exactly inside a stage. -/
theorem topic_eq_error_iff (h : s.Encloses env) (hroot : s.post.root.BindsNoTopic) :
    env.topic = .error .unboundTopic ↔ ¬ s.post.root.InStage s.post.path := by
  have hnone : env.topic = .error .unboundTopic ↔ env.scope.lookup? topicName = none := by
    unfold Env.topic
    split <;> simp_all
  rw [hnone, Scope.lookup?_eq_none_iff, h.names, ← topicName_mem_framesAt hroot h.node]
  simp only [not_exists, not_and]

theorem eval_topic {probe : Probe} (h : s.Encloses env) (hprobe : probe.Silent) {span : Span}
    (htopic : s.tree = .topic span) (depth : Nat) :
    s.eval probe depth env = Eval.claim (s.start + 1) env.topic := by
  obtain ⟨post, tree, start⟩ := s
  obtain rfl : tree = .topic span := htopic
  change (do probe _ env; Eval.claim (start + 1) env.topic) = _
  rw [hprobe _ env h, pure_bind]

end Spot.Encloses

/-- Scoping is lexical. A probe at every node that is silent in the environments of the node's
position, those with the frames that the position gives and with the globals and data of its
evaluation, changes nothing: not in an evaluation, nor in any later call, by whomever, of a function
that one has made. Inside an initial value no name of its own or of a later declaration is looked
for among the declarations, and if the tree was parsed, a topic has a value exactly inside a
stage. -/
theorem scoping_lexical {tree : Expr} {source : String} {options : Options} {x : Expression}
    (hx : Expression.ofTree tree source options = .ok x) :
    (∀ probe : Probe, probe.Silent → ∀ w : Store Spot Nat, w.All Callable.Lexical →
      (∀ depth data,
        x.evaluate depth data w.coded =
            ((tree.evaluateProbed probe options depth data w).1.map (·.mapError x.explain),
              (tree.evaluateProbed probe options depth data w).2.coded) ∧
          (tree.evaluateProbed probe options depth data w).2.All Callable.Lexical) ∧
      ∀ depth f vs,
        (Code.caller depth f vs).run w.coded =
            (((Spot.caller probe depth f vs).run w).1,
              ((Spot.caller probe depth f vs).run w).2.coded) ∧
          ((Spot.caller probe depth f vs).run w).2.All Callable.Lexical) ∧
    (∀ (s : Spot) env, s.Encloses env → s.post.root = tree →
      ∀ path i inner span ds d body, s.post.path = path ++ i :: inner →
        tree.at? path = some (.letIn span ds body) → ds[i]? = some d →
        ∃ own earlier outer, env.scope = own ++ (earlier ++ outer) ∧
          own.map (·.names) = d.init.framesAt inner ∧
          earlier.map (·.names) = ((ds.take i).map fun d => [d.name.text]).reverse ∧
          outer.map (·.names) = tree.framesAt path ∧
          ∀ e ∈ ds.drop i,
            env.scope.lookup? e.name.text = Scope.lookup? (own ++ outer) e.name.text) ∧
    ∀ text, Expr.parse text = .ok tree → ∀ (s : Spot) env, s.Encloses env → s.post.root = tree →
      ∀ span, s.tree = .topic span → ∀ probe : Probe, probe.Silent → ∀ depth w,
        (((s.eval probe depth env).run w).1 = some (.error (.atSite .unboundTopic (s.start + 1))) ↔
          ¬ tree.InStage s.post.path) ∧
        (tree.InStage s.post.path → ∃ v, (s.eval probe depth env).run w = (some (.ok v), w)) := by
  have hfault : tree.fault? = none := by
    unfold Expression.ofTree rejection? at hx
    rcases hdeep : tree.deeperThan? maxHeight with _ | node
    · rcases hf : tree.fault? with _ | f
      · rfl
      · simp only [hdeep, hf, reduceCtorEq] at hx
    · simp only [hdeep, reduceCtorEq] at hx
  refine ⟨fun probe hprobe w hw => ⟨evaluate_probed hx hprobe hw, caller_probed hprobe hw⟩, ?_, ?_⟩
  · rintro s env h rfl path i inner span ds d body hpath hlet hd
    exact h.scope_eq_of_init hfault hpath hlet hd
  · rintro text hparse s env h rfl span htopic probe hprobe depth w
    have hiff := h.topic_eq_error_iff (bindsNoTopic_of_parse hparse)
    rw [h.eval_topic hprobe htopic, ← hiff]
    unfold Env.topic at *
    cases hlookup : env.scope.lookup? topicName with
    | none => exact ⟨iff_of_true rfl rfl, fun hstage => absurd hstage (hiff.1 (by rw [hlookup]))⟩
    | some v => exact ⟨iff_of_false nofun nofun, fun _ => ⟨v, rfl⟩⟩

/-- A text whose first topic stands in the body of a lambda and whose second one stands in the stage
that calls it. -/
def topicsText : String := "let f = (b => %), a | f(%)"

def Expr.isTopic : Expr → Bool
  | .topic _ => true
  | _ => false

theorem Expr.isTopic_iff {e : Expr} : e.isTopic = true ↔ ∃ span, e = .topic span := by
  cases e <;> simp [isTopic]

theorem topicsText_tree : ∃ tree, Expr.parse topicsText = .ok tree ∧ tree.rejection? = none ∧
    (∃ span, tree.at? [0, 0] = some (.topic span)) ∧ tree.framesAt [0, 0] = [["b"]] ∧
    (∃ span, tree.at? [1, 1, 1] = some (.topic span)) ∧
    tree.framesAt [1, 1, 1] = [[topicName], ["f"]] := by
  have h : ((Expr.parse topicsText).toOption.any fun tree =>
      tree.rejection? = none ∧ (tree.at? [0, 0]).any (·.isTopic) ∧
      tree.framesAt [0, 0] = [["b"]] ∧ (tree.at? [1, 1, 1]).any (·.isTopic) ∧
      tree.framesAt [1, 1, 1] = [[topicName], ["f"]]) = true := by decide +kernel
  cases hparse : Expr.parse topicsText with
  | error log => rw [hparse] at h; cases h
  | ok tree =>
    rw [hparse] at h
    obtain ⟨hreject, hfirst, hframes, hsecond, hframes'⟩ := of_decide_eq_true h
    have htopic : ∀ path, (tree.at? path).any (·.isTopic) = true →
        ∃ span, tree.at? path = some (.topic span) := fun path hany => by
      rcases hn : tree.at? path with _ | n
      · rw [hn] at hany
        cases hany
      · rw [hn] at hany
        obtain ⟨span, rfl⟩ := isTopic_iff.1 hany
        exact ⟨span, rfl⟩
    exact ⟨tree, rfl, hreject, htopic _ hfirst, hframes, htopic _ hsecond, hframes'⟩

/-- The first topic has no value, though its lambda is called in a stage. -/
theorem scoping_lexical_call_in_stage :
    ∃ tree x, Expr.parse topicsText = .ok tree ∧
      Expression.ofTree tree topicsText .standard = .ok x ∧
      ∀ probe : Probe, probe.Silent → ∀ context v w depth u, ∃ span span',
        ((Spot.eval probe depth ⟨context, [⟨["b"], [v]⟩]⟩
          ⟨⟨tree, context, [0, 0]⟩, .topic span, 0⟩).run u).1 =
            some (.error (.atSite .unboundTopic 1)) ∧
        ∃ r, (Spot.eval probe depth ⟨context, [⟨[topicName], [v]⟩, ⟨["f"], [w]⟩]⟩
          ⟨⟨tree, context, [1, 1, 1]⟩, .topic span', 0⟩).run u = (some (.ok r), u) := by
  obtain ⟨tree, hparse, hreject, ⟨span, hfirst⟩, hframes, ⟨span', hsecond⟩, hframes'⟩ :=
    topicsText_tree
  have hx : Expression.ofTree tree topicsText .standard =
      .ok ⟨topicsText, tree.layout, tree.compile 0, .standard⟩ := by
    rw [Expression.ofTree, hreject]
  have hpoint := (scoping_lexical hx).2.2 _ hparse
  refine ⟨tree, _, hparse, hx, fun probe hprobe context v w depth u => ⟨span, span', ?_, ?_⟩⟩
  · have hstage : ¬ tree.InStage [0, 0] := by
      rw [← topicName_mem_framesAt (bindsNoTopic_of_parse hparse) hfirst, hframes]
      decide
    let s : Spot := ⟨⟨tree, context, [0, 0]⟩, .topic span, 0⟩
    have henv : s.Encloses ⟨context, [⟨["b"], [v]⟩]⟩ := ⟨hfirst, hframes.symm, rfl⟩
    exact (hpoint s _ henv rfl span rfl probe hprobe depth u).1.2 hstage
  · have hstage : tree.InStage [1, 1, 1] := by
      rw [← topicName_mem_framesAt (bindsNoTopic_of_parse hparse) hsecond, hframes']
      decide
    let s : Spot := ⟨⟨tree, context, [1, 1, 1]⟩, .topic span', 0⟩
    have henv : s.Encloses ⟨context, [⟨[topicName], [v]⟩, ⟨["f"], [w]⟩]⟩ :=
      ⟨hsecond, hframes'.symm, rfl⟩
    exact (hpoint s _ henv rfl span' rfl probe hprobe depth u).2 hstage

end ExprLang
