import ExprLang.Machine
import ExprLang.Policy.Standard

/-!
Which operands an action evaluates. The standard policy evaluates the left operand of a logical
operator first and the right one only if the left one does not decide; it runs the stages of a pipe
in order, each once, until one of them fails or an optional one has nothing to work on.
-/
namespace ExprLang

variable {β π φ ι α : Type}

/-- An operand that was evaluated, the input it was given, and what came of it. -/
structure Supplied (ι : Type) where
  operand : ι
  input : Value
  outcome : Except Fault Value

/-- Evaluating these operands one after the other leads from the first store to the second. -/
inductive Supplies (supply : ι → Value → Run β π (Except Fault Value)) :
    List (Supplied ι) → Store β π → Store β π → Prop where
  | nil (w : Store β π) : Supplies supply [] w w
  | cons {p : Supplied ι} {ps : List (Supplied ι)} {w v u : Store β π}
    (hp : supply p.operand p.input w = (some p.outcome, v)) (hps : Supplies supply ps v u) :
    Supplies supply (p :: ps) w u

namespace Request

inductive OnlyRuns : Request φ ι α → Prop where
  | answer (a : α) : OnlyRuns (.answer a)
  | run {i : ι} {v : Value} {next : Except Fault Value → Request φ ι α}
    (h : ∀ r, OnlyRuns (next r)) : OnlyRuns (.run i v next)

/-- Evaluating these operands brings the action to an answer. -/
inductive Path : Request φ ι α → List (Supplied ι) → α → Prop where
  | answer (a : α) : Path (.answer a) [] a
  | run {i : ι} {v : Value} {next : Except Fault Value → Request φ ι α} {ps : List (Supplied ι)}
    {a : α} (r : Except Fault Value) (h : Path (next r) ps a) :
    Path (.run i v next) (⟨i, v, r⟩ :: ps) a

theorem path_answer {a b : α} {ps : List (Supplied ι)}
    (h : (answer a : Request φ ι α).Path ps b) : ps = [] ∧ b = a := by
  cases h
  exact ⟨rfl, rfl⟩

theorem path_run {i : ι} {v : Value} {next : Except Fault Value → Request φ ι α}
    {ps : List (Supplied ι)} {a : α} (h : (run i v next).Path ps a) :
    ∃ r qs, ps = ⟨i, v, r⟩ :: qs ∧ (next r).Path qs a := by
  cases h with
  | run r h => exact ⟨r, _, rfl, h⟩

theorem OnlyRuns.orFault {next : Value → Request φ ι (Except Fault Value)}
    (h : ∀ v, (next v).OnlyRuns) : ∀ r : Except Fault Value, (Request.orFault next r).OnlyRuns
  | .ok v => h v
  | .error f => .answer (Except.error f)

/-- Carried out, such an action evaluates the operands of one of its paths and nothing else. -/
theorem OnlyRuns.perform {a : Action ι α} (ha : a.OnlyRuns)
    (call : Value → List Value → Run β π (Except Fault Value))
    (supply : ι → Value → Run β π (Except Fault Value)) {b : α} {w u : Store β π}
    (h : a.perform call supply w = (some b, u)) : ∃ ps, a.Path ps b ∧ Supplies supply ps w u := by
  induction ha generalizing w with
  | answer a =>
    cases (show (some a, w) = (some b, u) from h)
    exact ⟨[], .answer b, .nil u⟩
  | @run i v next _ ih =>
    rw [Request.perform, Run.bind_apply] at h
    rcases hs : supply i v w with ⟨_ | r, v'⟩
    · rw [hs] at h
      cases h
    · rw [hs] at h
      obtain ⟨ps, hpath, hsup⟩ := ih r h
      exact ⟨⟨i, v, r⟩ :: ps, .run r hpath, .cons hs hsup⟩

end Request

namespace Policy.Standard

open Request

def needsRight (op : LogicalOp) (v : Value) : Bool := v.isTruthy == (op == .and)

def truth (r : Except Fault Value) : Except Fault Value := r.map fun v => .bool v.isTruthy

def rightOperand : Action Side (Except Fault Value) :=
  .run .right .undefined <| .orFault fun w => .ok (.bool w.isTruthy)

theorem logical_eq (op : LogicalOp) :
    logical op = .run .left .undefined (.orFault fun v =>
      if needsRight op v then rightOperand else .ok (.bool v.isTruthy)) := by
  cases op with
  | and =>
    refine congrArg (fun next => Request.run Side.left .undefined (.orFault next))
      (funext fun v => ?_)
    cases hv : v.isTruthy <;> simp [needsRight, hv, rightOperand]
  | or =>
    refine congrArg (fun next => Request.run Side.left .undefined (.orFault next))
      (funext fun v => ?_)
    cases hv : v.isTruthy <;> simp [needsRight, hv, rightOperand]

theorem onlyRuns_rightOperand : rightOperand.OnlyRuns :=
  .run (.orFault fun _ => .answer _)

theorem onlyRuns_logical (op : LogicalOp) : (logical op).OnlyRuns := by
  rw [logical_eq]
  refine .run (.orFault fun v => ?_)
  split
  · exact onlyRuns_rightOperand
  · exact .answer _

theorem path_rightOperand {ps : List (Supplied Side)} {a : Except Fault Value}
    (h : rightOperand.Path ps a) : ∃ r, ps = [⟨.right, .undefined, r⟩] ∧ a = truth r := by
  obtain ⟨r, qs, rfl, hr⟩ := path_run h
  rcases r with f | w <;> obtain ⟨rfl, rfl⟩ := path_answer hr <;> exact ⟨_, rfl, rfl⟩

/-- The operands of a logical operator are evaluated from left to right, the right one just when
the left one succeeds and does not decide; the answer is the truth value of the last. -/
def ShortCircuits (op : LogicalOp) (ps : List (Supplied Side)) (a : Except Fault Value) : Prop :=
  (∃ v r, needsRight op v ∧ ps = [⟨.left, .undefined, .ok v⟩, ⟨.right, .undefined, r⟩] ∧
    a = truth r) ∨
  ∃ r, (∀ v, r = .ok v → needsRight op v = false) ∧ ps = [⟨.left, .undefined, r⟩] ∧ a = truth r

theorem path_logical {op : LogicalOp} {ps : List (Supplied Side)} {a : Except Fault Value}
    (h : (logical op).Path ps a) : ShortCircuits op ps a := by
  rw [logical_eq] at h
  obtain ⟨r, qs, rfl, hr⟩ := path_run h
  rcases r with f | v
  · obtain ⟨rfl, rfl⟩ := path_answer hr
    exact .inr ⟨.error f, by simp, rfl, rfl⟩
  · change (if needsRight op v then rightOperand else .ok (.bool v.isTruthy)).Path qs a at hr
    split at hr
    case isTrue hv =>
      obtain ⟨r, rfl, ha⟩ := path_rightOperand hr
      exact .inl ⟨v, r, hv, rfl, ha⟩
    case isFalse hv =>
      obtain ⟨rfl, rfl⟩ := path_answer hr
      refine .inr ⟨.ok v, ?_, rfl, rfl⟩
      rintro u ⟨⟩
      exact Bool.eq_false_iff.2 hv

def stopsAt (optionals : List Bool) (i : Nat) (v : Value) : Prop :=
  optionals[i]? = none ∨ optionals[i]? = some true ∧ v.isNullish

/-- The stages of a pipe from the one numbered `i` on run in order and once, each on what came of
the one before it, until one fails, none is left, or an optional one would have nothing to work
on. -/
structure RunsInOrder (optionals : List Bool) (i : Nat) (v : Value) (ps : List (Supplied Nat))
    (a : Except Fault Value) : Prop where
  numbered : ps.map (·.operand) = List.range' i ps.length
  chained : ps.map (fun p => .ok p.input) ++ [a] = .ok v :: ps.map (·.outcome)
  runs (p : Supplied Nat) (h : p ∈ ps) : ¬ stopsAt optionals p.operand p.input
  ends (u : Value) (h : a = .ok u) : stopsAt optionals (i + ps.length) u

theorem onlyRuns_pipe (head : Value) (optionals : List Bool) : (pipe head optionals).OnlyRuns := by
  suffices ∀ i v, (runStages i v optionals).OnlyRuns from this 0 head
  induction optionals with
  | nil => exact fun _ _ => .answer _
  | cons optional rest ih =>
    intro i v
    rw [runStages]
    split
    · exact .answer _
    · exact .run (.orFault fun w => ih (i + 1) w)

theorem path_runStages (optionals : List Bool) {rest : List Bool} {i : Nat} {v : Value}
    {ps : List (Supplied Nat)} {a : Except Fault Value} (hrest : optionals.drop i = rest)
    (h : (runStages i v rest).Path ps a) : RunsInOrder optionals i v ps a := by
  have hi : optionals[i]? = rest.head? := by rw [← hrest, List.head?_drop]
  induction rest generalizing i v ps with
  | nil =>
    obtain ⟨rfl, rfl⟩ := path_answer h
    exact ⟨rfl, rfl, by simp, fun u _ => .inl hi⟩
  | cons optional rest ih =>
    rw [runStages] at h
    split at h
    case isTrue hstop =>
      obtain ⟨hopt, hv⟩ := Bool.and_eq_true_iff.1 hstop
      obtain ⟨rfl, rfl⟩ := path_answer h
      refine ⟨rfl, rfl, by simp, ?_⟩
      rintro u ⟨⟩
      exact .inr ⟨hi.trans (congrArg some hopt), hv⟩
    case isFalse hgo =>
      have hruns : ¬ stopsAt optionals i v := by
        rintro (hnone | ⟨hsome, hv⟩)
        · exact absurd (hi.symm.trans hnone) (by simp)
        · cases Option.some.inj (hi.symm.trans hsome)
          exact hgo (by rw [hv]; rfl)
      obtain ⟨r, qs, rfl, hr⟩ := path_run h
      rcases r with f | w
      · obtain ⟨rfl, rfl⟩ := path_answer hr
        exact ⟨rfl, rfl, by simpa using hruns, by simp⟩
      · have hdrop : optionals.drop (i + 1) = rest := by
          rw [← List.drop_drop, hrest, List.drop_one, List.tail_cons]
        obtain ⟨hnum, hchain, hall, hend⟩ := ih hdrop hr (by rw [← hdrop, List.head?_drop])
        refine ⟨?_, ?_, ?_, ?_⟩
        · rw [List.map_cons, hnum, List.length_cons, List.range'_succ]
        · rw [List.map_cons, List.map_cons, List.cons_append, hchain]
        · exact List.forall_mem_cons.2 ⟨hruns, hall⟩
        · intro u hu
          rw [List.length_cons, Nat.add_comm qs.length, ← Nat.add_assoc]
          exact hend u hu

theorem perform_logical {op : LogicalOp}
    {call : Value → List Value → Run β π (Except Fault Value)}
    {supply : Side → Value → Run β π (Except Fault Value)} {a : Except Fault Value}
    {w u : Store β π} (h : (logical op).perform call supply w = (some a, u)) :
    ∃ ps, Supplies supply ps w u ∧ ShortCircuits op ps a := by
  obtain ⟨ps, hpath, hsup⟩ := (onlyRuns_logical op).perform call supply h
  exact ⟨ps, hsup, path_logical hpath⟩

theorem perform_pipe {head : Value} {optionals : List Bool}
    {call : Value → List Value → Run β π (Except Fault Value)}
    {supply : Nat → Value → Run β π (Except Fault Value)} {a : Except Fault Value}
    {w u : Store β π} (h : (pipe head optionals).perform call supply w = (some a, u)) :
    ∃ ps, Supplies supply ps w u ∧ RunsInOrder optionals 0 head ps a := by
  obtain ⟨ps, hpath, hsup⟩ := (onlyRuns_pipe head optionals).perform call supply h
  exact ⟨ps, hsup, path_runStages optionals List.drop_zero hpath⟩

end Policy.Standard

end ExprLang
