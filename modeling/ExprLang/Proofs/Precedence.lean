import ExprLang.Proofs.Precedence.Rows

/-!
Operator precedence. A row of operands, joined by operators in any order, is read as a tree in which
every operator has the operands that belong to it.
-/
namespace ExprLang

open ExprLang.Expr Parse
open TokenKind (front)

variable {c : Cursor}

theorem InfixOp.ofToken?_token {op : InfixOp} (h : op ≠ .binary .pow) :
    InfixOp.ofToken? op.token = some op := by
  rcases op with _ | ⟨⟨⟩⟩ | ⟨⟨⟩⟩
  all_goals first
    | rfl
    | exact absurd rfl h

namespace Joint

theorem level_eq {op : InfixOp} (h : op ≠ .binary .pow) : op.level = (Joint.op op).tightness := by
  rcases op with _ | ⟨⟨⟩⟩ | ⟨⟨⟩⟩
  all_goals first
    | rfl
    | exact absurd rfl h

theorem tightness_lt_of_ne_power {j : Joint} (h : j ≠ power) : j.tightness < prefixTightness := by
  cases j with
  | pipe optional => exact Nat.zero_lt_succ _
  | op o =>
    rcases o with _ | ⟨⟨⟩⟩ | ⟨⟨⟩⟩
    all_goals first
      | decide
      | exact absurd rfl h

theorem token_ne_caret {j : Joint} (h : j ≠ power) : j.token ≠ .symbol .caret := by
  cases j with
  | pipe optional => cases optional <;> decide
  | op o =>
    rcases o with _ | ⟨⟨⟩⟩ | ⟨⟨⟩⟩
    all_goals first
      | decide
      | exact absurd rfl h

theorem extendsOperand_token (j : Joint) : j.token.extendsOperand = false := by
  cases j with
  | pipe optional => cases optional <;> rfl
  | op o => rcases o with _ | ⟨⟨⟩⟩ | ⟨⟨⟩⟩ <;> rfl

/-- The operators of a level are those of one tightness. -/
theorem atLevel_token {j : Joint} {level : Nat} (hpos : 0 < level)
    (hlevel : level ≤ InfixOp.tightest) :
    InfixOp.atLevel level j.token = none ∧ j.tightness ≠ level ∨
      ∃ op, op ≠ .binary .pow ∧ j = .op op ∧ j.tightness = level ∧
        InfixOp.atLevel level j.token = some op := by
  unfold InfixOp.atLevel
  cases j with
  | pipe optional =>
    refine .inl ⟨?_, Nat.ne_of_lt hpos⟩
    cases optional <;> rfl
  | op op =>
    by_cases hpow : op = .binary .pow
    · subst hpow
      refine .inl ⟨rfl, ?_⟩
      change 10 ≠ level
      unfold InfixOp.tightest at hlevel
      omega
    · rw [token, InfixOp.ofToken?_token hpow, Option.filter_some, level_eq hpow]
      by_cases h : (Joint.op op).tightness = level
      · exact .inr ⟨op, hpow, rfl, h, by simp [h]⟩
      · exact .inl ⟨by simp [h], h⟩

end Joint

/-- A tree of an operand and of what was joined to it, whose operators bind at least so tightly. -/
structure Reading (bound : Nat) (o : Operand) (done : Joined) (e : Expr) : Prop where
  reading_eq : e.reading = o.kinds ++ done.kinds
  exposed : ∀ t ∈ e.exposed, bound ≤ t
  tight : ∀ p ∈ done, bound ≤ p.1.tightness
  grouped : e.AllGrouped

/-- What is left of a row begins with an operator that binds less tightly. -/
def Stops (bound : Nat) (rest : Joined) : Prop := ∀ p ∈ rest.head?, p.1.tightness < bound

theorem Stops.nil (bound : Nat) : Stops bound [] := by
  intro p hp
  cases hp

/-- From a row whose prefix operators and powers do not nest too deeply a parser takes all that
binds at least so tightly. -/
def TakesTight (bound limit : Nat) (m : Parse Expr) : Prop :=
  ∀ o rest c, Row.longestChain o rest < limit → c.Sees (o.kinds ++ rest.kinds) →
    m.Reads (fun e c' => ∃ done left, rest = done ++ left ∧ Reading bound o done e ∧
      Stops bound left ∧ c'.Sees left.kinds) c

theorem UnaryOp.ofToken?_token (op : UnaryOp) : UnaryOp.ofToken? op.token = some op := by
  cases op <;> rfl

theorem UnaryOp.ofToken?_atom (a : Atom) : UnaryOp.ofToken? a.token = none := by
  rcases a with (_ | _ | ⟨⟨⟩⟩ | _) | _ | _ <;> rfl

theorem Atom.isAtom_tree (a : Atom) (span : Span) : (a.tree span).IsAtom := by
  cases a <;> trivial

theorem Atom.reading_tree (a : Atom) (span : Span) : (a.tree span).reading = [a.token] := by
  cases a <;> rfl

theorem Joined.extendsOperand_front (rest : Joined) :
    (front rest.kinds).extendsOperand = false := by
  cases rest with
  | nil => rfl
  | cons p rest => exact p.1.extendsOperand_token

/-- An operand with its prefix operators and the powers that follow. -/
def TakesChain (limit : Nat) (m : Parse Expr) : Prop :=
  ∀ o rest c, Row.chain o rest < limit → c.Sees (o.kinds ++ rest.kinds) →
    m.Reads (fun e c' => ∃ done left, rest = done ++ left ∧ e.PowerChain ∧
      e.reading = o.kinds ++ done.kinds ∧ (∀ p ∈ done, p.1 = .power) ∧
      (∀ p ∈ left.head?, p.1 ≠ .power) ∧ c'.Sees left.kinds) c

theorem takesChain_prefixed {limit : Nat} {expression nested : Parse Expr}
    (h : TakesChain limit nested) : TakesChain (limit + 1) (prefixed expression nested) := by
  rintro ⟨prefixes, atom⟩ rest c hchain hc
  refine .bind (.any fun start => ?_)
  cases prefixes with
  | cons op prefixes =>
    have hfront : front ((⟨op :: prefixes, atom⟩ : Operand).kinds ++ rest.kinds) = op.token := rfl
    refine .bind (.peekKind hc ?_)
    rw [hfront, op.ofToken?_token]
    refine .bind (.advance hc fun c' hc' => .bind ?_)
    have hless : Row.chain ⟨prefixes, atom⟩ rest < limit := by
      rcases rest with _ | ⟨⟨_ | _ | _ | ⟨⟨⟩⟩, _⟩, _⟩ <;>
        simp only [Row.chain, List.length_cons] at hchain ⊢ <;> omega
    refine (h ⟨prefixes, atom⟩ rest c' hless hc').mono ?_
    rintro e d ⟨done, left, rfl, hpower, hreading, hdone, hleft, hd⟩
    refine .bind (.any fun span => .pure ?_)
    exact ⟨done, left, rfl, .unary span op hpower, congrArg (op.token :: ·) hreading, hdone, hleft,
      hd⟩
  | nil =>
    have hfront : front ((⟨[], atom⟩ : Operand).kinds ++ rest.kinds) = atom.token := rfl
    refine .bind (.peekKind hc ?_)
    rw [hfront, UnaryOp.ofToken?_atom]
    refine .bind (reads_postfixed atom hc rest.extendsOperand_front fun span d hd => .bind ?_)
    by_cases hpower : ∃ o' rest', rest = (.power, o') :: rest'
    · obtain ⟨o', rest', rfl⟩ := hpower
      refine .eat_true hd fun d' hd' => .bind ?_
      have hless : Row.chain o' rest' < limit := by
        simp only [Joint.power, Row.chain, List.length_nil] at hchain
        omega
      refine (h o' rest' d' hless hd').mono ?_
      rintro e d'' ⟨done, left, rfl, hright, hreading, hdone, hleft, hd''⟩
      refine .bind (.any fun span' => .pure ?_)
      refine ⟨(.power, o') :: done, left, rfl, .power span' (atom.isAtom_tree span) hright, ?_,
        List.forall_mem_cons.2 ⟨rfl, hdone⟩, hleft, hd''⟩
      rw [reading, atom.reading_tree, hreading]
      rfl
    · have hleft : ∀ p ∈ rest.head?, p.1 ≠ .power := by
        rintro ⟨j, o'⟩ hp rfl
        rw [Option.mem_def, List.head?_eq_some_iff] at hp
        exact hpower ⟨o', hp⟩
      refine .eat_false hd ?_ (.pure ?_)
      · cases rest with
        | nil => exact TokenKind.noConfusion
        | cons p rest => exact Joint.token_ne_caret (hleft p rfl)
      · refine ⟨[], rest, rfl, .atom (atom.isAtom_tree span), atom.reading_tree span,
          List.forall_mem_nil _, hleft, hd⟩

theorem takesChain_operandParser (n : Nat) : TakesChain n (operandParser n) := by
  induction n with
  | zero => exact fun _ _ _ h => absurd h (Nat.not_lt_zero _)
  | succ n ih => exact takesChain_prefixed ih

theorem takesTight_of_takesChain {limit : Nat} {m : Parse Expr} (h : TakesChain limit m) :
    TakesTight Joint.prefixTightness limit m := by
  intro o rest c hlimit hc
  have hchain := Nat.lt_of_le_of_lt (Row.chain_le_longestChain o rest) hlimit
  refine (h o rest c hchain hc).mono ?_
  rintro e d ⟨done, left, rfl, hpower, hreading, hdone, hleft, hd⟩
  refine ⟨done, left, rfl, ⟨hreading, hpower.le_of_mem_exposed, fun p hp => ?_, hpower.allGrouped⟩,
    fun p hp => Joint.tightness_lt_of_ne_power (hleft p hp), hd⟩
  rw [hdone p hp]
  decide

/-- An operator between what was read before it and an operand with what binds tighter. -/
theorem Reading.node {level : Nat} {o o' : Operand} {op : InfixOp} {done done' : Joined}
    {left right : Expr} (hop : op ≠ .binary .pow) (hlevel : (Joint.op op).tightness = level)
    (hleft : Reading level o done left) (hright : Reading (level + 1) o' done' right)
    (span : Span) : Reading level o (done ++ (.op op, o') :: done') (op.node span left right) where
  reading_eq := by
    rw [reading_node, hleft.reading_eq, hright.reading_eq]
    simp [Joined.kinds, Joint.token]
  exposed := by
    rw [exposed_node, List.forall_mem_append, List.forall_mem_cons]
    exact ⟨hleft.exposed, Nat.le_of_eq hlevel.symm,
      fun t ht => Nat.le_of_succ_le (hright.exposed t ht)⟩
  tight := by
    rw [List.forall_mem_append, List.forall_mem_cons]
    exact ⟨hleft.tight, Nat.le_of_eq hlevel.symm, fun p hp => Nat.le_of_succ_le (hright.tight p hp)⟩
  grouped := by
    refine .node (grouped_node hop ⟨hlevel ▸ hleft.exposed, hlevel ▸ hright.exposed⟩) ?_
    rw [children_node]
    exact List.forall_mem_cons.2 ⟨hleft.grouped, List.forall_mem_singleton.2 hright.grouped⟩

theorem Reading.looser {bound level : Nat} {o : Operand} {done : Joined} {e : Expr}
    (h : Reading bound o done e) (hle : level ≤ bound) : Reading level o done e where
  reading_eq := h.reading_eq
  exposed t ht := Nat.le_trans hle (h.exposed t ht)
  tight p hp := Nat.le_trans hle (h.tight p hp)
  grouped := h.grouped

theorem takesTight_infixChain {level limit : Nat} {m : Parse Expr} (hpos : 0 < level)
    (hlevel : level ≤ InfixOp.tightest) (h : TakesTight (level + 1) limit m) :
    TakesTight level limit (infixChain level m) := by
  intro o rest c hlimit hc
  refine .bind (.any fun start => .bind ((h o rest c hlimit hc).mono ?_))
  rintro first d ⟨done, left, hrest, hreading, hstops, hd⟩
  refine .loop (I := fun e d => ∃ done left, rest = done ++ left ∧ Reading level o done e ∧
    Stops (level + 1) left ∧ d.Sees left.kinds)
    ⟨done, left, hrest, hreading.looser (Nat.le_succ _), hstops, hd⟩ ?_
  rintro e d ⟨done, left, hrest, he, hstops, hd⟩
  refine .bind (.peekKind hd ?_)
  cases left with
  | nil => exact .pure ⟨done, [], hrest, he, .nil level, hd⟩
  | cons p left =>
    obtain ⟨j, o'⟩ := p
    have hj : j.tightness < level + 1 := hstops _ rfl
    rcases Joint.atLevel_token (j := j) hpos hlevel with ⟨hnone, hne⟩ | ⟨op, hop, rfl, heq, hsome⟩
    · have hfront : InfixOp.atLevel level (front (Joined.kinds ((j, o') :: left))) = none := hnone
      rw [hfront]
      refine .pure ⟨done, _, hrest, he, fun p hp => ?_, hd⟩
      obtain rfl := Option.some.inj hp
      change j.tightness < level
      omega
    · have hfront : InfixOp.atLevel level (front (Joined.kinds ((.op op, o') :: left))) = some op :=
        hsome
      rw [hfront]
      refine .bind (.advance hd fun d' hd' => .bind ?_)
      have hless := Nat.lt_of_le_of_lt (Row.longestChain_le_append done) (hrest ▸ hlimit)
      refine (h o' left d' hless hd').mono ?_
      rintro right d'' ⟨done', left', rfl, hright, hstops', hd''⟩
      refine .bind (.any fun span => .pure ⟨⟨_, left', ?_, he.node hop heq hright span, hstops',
        hd''⟩, ?_⟩)
      · rw [hrest, List.append_assoc, List.cons_append]
      · rw [hd''.length_eq, hd.length_eq]
        simp [Joined.kinds]
        omega

theorem takesTight_infixes {limit : Nat} {m : Parse Expr}
    (h : TakesTight Joint.prefixTightness limit m) (n : Nat) (hn : n ≤ InfixOp.tightest) :
    TakesTight (Joint.prefixTightness - n) limit (infixes m n) := by
  induction n with
  | zero => exact h
  | succ n ih =>
    have hlevel : Joint.prefixTightness - (n + 1) = InfixOp.tightest - n := by
      unfold Joint.prefixTightness InfixOp.tightest
      omega
    have hoperand : Joint.prefixTightness - n = InfixOp.tightest - n + 1 := by
      unfold Joint.prefixTightness InfixOp.tightest at *
      omega
    rw [hlevel]
    refine takesTight_infixChain ?_ (Nat.sub_le _ _) (hoperand ▸ ih (Nat.le_of_succ_le hn))
    exact Nat.sub_pos_of_lt hn

/-- The stages of a pipe, with all that binds tighter in each. -/
structure StagesReading (done : Joined) (stages : List (Stage Expr)) : Prop where
  reading_eq : stagesReading stages = done.kinds
  flags : stages.map (·.optional) = done.flags
  grouped : ∀ s ∈ stages, s.body.AllGrouped
  exposed : ∀ s ∈ stages, ∀ t ∈ s.body.exposed, 0 < t

theorem stagesReading_append (ss : List (Stage Expr)) (s : Stage Expr) :
    stagesReading (ss ++ [s]) =
      stagesReading ss ++ (Joint.pipe s.optional).token :: s.body.reading := by
  induction ss with
  | nil => exact congrArg (_ :: ·) (List.append_nil _)
  | cons r ss ih => rw [List.cons_append, stagesReading, stagesReading, ih, List.append_assoc]

theorem Joined.flags_append_pipe (before after : Joined) (optional : Bool) (o : Operand) :
    flags (before ++ (.pipe optional, o) :: after) = before.flags ++ optional :: after.flags :=
  List.filterMap_append

theorem Reading.flags_eq {o : Operand} {done : Joined} {e : Expr} (h : Reading 1 o done e) :
    done.flags = [] := by
  refine List.filterMap_eq_nil_iff.2 fun p hp => ?_
  obtain ⟨_ | o', _⟩ := p
  · exact absurd (h.tight _ hp) (Nat.not_succ_le_zero 0)
  · rfl

theorem StagesReading.append {done done' : Joined} {stages : List (Stage Expr)} {o : Operand}
    {body : Expr} (optional : Bool) (h : StagesReading done stages)
    (hbody : Reading 1 o done' body) :
    StagesReading (done ++ (.pipe optional, o) :: done') (stages ++ [⟨optional, body⟩]) where
  reading_eq := by
    rw [stagesReading_append, h.reading_eq, hbody.reading_eq]
    simp [Joined.kinds]
  flags := by
    rw [List.map_append, h.flags, Joined.flags_append_pipe, hbody.flags_eq]
    rfl
  grouped := List.forall_mem_append.2 ⟨h.grouped, List.forall_mem_singleton.2 hbody.grouped⟩
  exposed := List.forall_mem_append.2 ⟨h.exposed, List.forall_mem_singleton.2 hbody.exposed⟩

/-- The stages read so far, with what is left of the row. -/
structure Piped (rest : Joined) (stages : List (Stage Expr)) (left : Joined) : Prop where
  split : ∃ done, rest = done ++ left ∧ StagesReading done stages
  stops : Stops 1 left

theorem reads_stage {limit : Nat} {m : Parse Expr} (h : TakesTight 1 limit m) {rest left : Joined}
    {stages : List (Stage Expr)} {optional : Bool} {o : Operand}
    (hpiped : Piped rest stages ((.pipe optional, o) :: left))
    (hlimit : Row.longestChain o left < limit)
    (hc : c.Sees ((Joint.pipe optional).token :: (o.kinds ++ left.kinds)))
    {Q : List (Stage Expr) → Cursor → Prop} :
    Reads (do
      advance
      return Progress.more (stages ++ [⟨optional, ← m⟩]))
      (fun r c' => r.Either (fun ss => (∃ left', Piped rest ss left' ∧ c'.Sees left'.kinds) ∧
        c'.rest.length < c.rest.length) fun ss => Q ss c') c := by
  obtain ⟨done, hrest, hstages⟩ := hpiped.split
  refine .bind (.advance hc fun d hd => .bind ((h o left d hlimit hd).mono ?_))
  rintro body d' ⟨done', left', rfl, hbody, hstops, hd'⟩
  refine .pure ⟨⟨left', ⟨⟨_, ?_, hstages.append optional hbody⟩, hstops⟩, hd'⟩, ?_⟩
  · rw [hrest, List.append_assoc, List.cons_append]
  · rw [hd'.length_eq, hc.length_eq]
    simp [Joined.kinds]
    omega

/-- All stages of a row stand in one pipe, and without stages there is none. -/
def IsPipeOf (t head : Expr) (stages : List (Stage Expr)) : Prop :=
  stages = [] ∧ t = head ∨ stages ≠ [] ∧ ∃ span, t = .pipe span head stages

theorem reads_pipeline {limit : Nat} {m : Parse Expr}
    (h : TakesTight Joint.prefixTightness limit m) {r : Row} (hlimit : r.nesting < limit)
    (hc : c.Sees r.kinds) :
    (pipeline m).Reads (fun t c' => c'.Sees [] ∧ ∃ head stages, IsPipeOf t head stages ∧
      ∃ done done', r.rest = done ++ done' ∧ Reading 1 r.first done head ∧
        StagesReading done' stages) c := by
  have htight : TakesTight 1 limit (infixes m InfixOp.tightest) :=
    takesTight_infixes h InfixOp.tightest (Nat.le_refl _)
  refine .bind (.any fun start => .bind ((htight _ _ c hlimit hc).mono ?_))
  rintro head d ⟨done, rest, hrest, hhead, hstops, hd⟩
  refine .bind (.mono (Q := fun stages d => d.Sees [] ∧ StagesReading rest stages) (.loop
    (I := fun stages d => ∃ left, Piped rest stages left ∧ d.Sees left.kinds)
    ⟨rest, ⟨⟨[], rfl, rfl, rfl, List.forall_mem_nil _, List.forall_mem_nil _⟩, hstops⟩, hd⟩ ?_) ?_)
  · rintro stages d ⟨left, hpiped, hd⟩
    refine .bind (.peekKind hd ?_)
    cases left with
    | nil =>
      obtain ⟨done', hrest', hstages⟩ := hpiped.split
      rw [List.append_nil] at hrest'
      exact .pure ⟨hd, hrest' ▸ hstages⟩
    | cons p left =>
      obtain ⟨j, o⟩ := p
      have hj : j.tightness < 1 := hpiped.stops _ rfl
      have hless : Row.longestChain o left < limit := by
        obtain ⟨done', hrest', -⟩ := hpiped.split
        rw [Row.nesting, hrest, hrest', ← List.append_assoc] at hlimit
        exact Nat.lt_of_le_of_lt (Row.longestChain_le_append _) hlimit
      cases j with
      | op o => rcases o with _ | ⟨⟨⟩⟩ | ⟨⟨⟩⟩ <;> exact absurd hj (by decide)
      | pipe optional =>
        cases optional with
        | false => exact reads_stage htight hpiped hless hd
        | true => exact reads_stage htight hpiped hless hd
  · rintro stages d' ⟨hd', hstages⟩
    by_cases hnil : stages = []
    · subst hnil
      exact .pure ⟨hd', head, [], .inl ⟨rfl, rfl⟩, done, rest, hrest, hhead, hstages⟩
    · rw [if_neg (by simpa using hnil)]
      refine .bind (.any fun span => .pure ⟨hd', head, stages, .inr ⟨hnil, span, rfl⟩, ?_⟩)
      exact ⟨done, rest, hrest, hhead, hstages⟩

theorem Row.endOfInput_not_mem (r : Row) : .endOfInput ∉ r.kinds := by
  have hoperand : ∀ o : Operand, ∀ k ∈ o.kinds, k ≠ .endOfInput := by
    rintro ⟨prefixes, atom⟩
    refine List.forall_mem_append.2 ⟨List.forall_mem_map.2 fun op _ => ?_,
      List.forall_mem_singleton.2 ?_⟩
    · cases op <;> exact TokenKind.noConfusion
    · rcases atom with (_ | _ | ⟨⟨⟩⟩ | _) | _ | _ <;> exact TokenKind.noConfusion
  have hjoint : ∀ j : Joint, j.token ≠ .endOfInput := by
    rintro (⟨⟨⟩⟩ | _ | ⟨⟨⟩⟩ | ⟨⟨⟩⟩) <;> exact TokenKind.noConfusion
  intro hmem
  rcases List.mem_append.1 hmem with hmem | hmem
  · exact hoperand _ _ hmem rfl
  · obtain ⟨p, -, hmem⟩ := List.mem_flatMap.1 hmem
    rcases List.mem_cons.1 hmem with hmem | hmem
    · exact hjoint p.1 hmem.symm
    · exact hoperand _ _ hmem rfl

/-- A row is read, if its prefix operators and powers do not nest too deeply and the tree is not too
high, as a tree that gives the row back from left to right and in which every operator has the
operands that belong to it; the stages of all its pipes stand in one. -/
theorem row_grouped (r : Row) (hr : r.nesting < maxNesting) {ts : List Token}
    (hts : ts.map (·.kind) = r.kinds ++ [.endOfInput]) :
    ∃ t head stages, t.reading = r.kinds ∧ IsPipeOf t head stages ∧
      stages.map (·.optional) = r.rest.flags ∧
      (∀ e ∈ head :: stages.map (·.body), e.AllGrouped ∧ ∀ k ∈ e.exposed, 0 < k) ∧
      (t.deeperThan? maxHeight = none →
        ofTokens ts = ⟨some t, []⟩ ∧ ∀ text, lex text = ⟨ts, []⟩ → parse text = .ok t) ∧
      ∀ node, t.deeperThan? maxHeight = some node →
        ofTokens ts = ⟨none, [⟨.treeTooHigh, node.span⟩]⟩ := by
  have hsees : (Cursor.ofTokens ts).Sees r.kinds := Cursor.sees_ofTokens hts r.endOfInput_not_mem
  obtain ⟨t, c, hparser, hc, head, stages, hpipe, done, done', hrest, hhead, hstages⟩ :=
    reads_pipeline (takesTight_of_takesChain (takesChain_prefixed (takesChain_operandParser _))) hr
      hsees
  have hreading : t.reading = r.kinds := by
    have hrow : r.kinds = head.reading ++ stagesReading stages := by
      rw [Row.kinds, hrest, hhead.reading_eq, hstages.reading_eq, List.append_assoc]
      simp [Joined.kinds]
    rcases hpipe with ⟨rfl, rfl⟩ | ⟨-, span, rfl⟩
    · rw [hrow, stagesReading, List.append_nil]
    · rw [hrow, reading]
  have hflags : stages.map (·.optional) = r.rest.flags := by
    rw [hstages.flags, hrest, Joined.flags, Joined.flags, List.filterMap_append]
    exact (congrArg (· ++ _) hhead.flags_eq).symm
  refine ⟨t, head, stages, hreading, hpipe, hflags, ?_, fun hdeep => ?_, fun node hdeep => ?_⟩
  · refine List.forall_mem_cons.2 ⟨⟨hhead.grouped, hhead.exposed⟩, List.forall_mem_map.2 ?_⟩
    exact fun s hs => ⟨hstages.grouped s hs, hstages.exposed s hs⟩
  · have htokens := ofTokens_eq_some hparser hc hdeep
    exact ⟨htokens, fun text htext => parse_eq_ok htext htokens⟩
  · exact ofTokens_eq_none hparser hc hdeep

/-- `-a ^ -b * c |? not d` -/
theorem row_grouped_power_pipe :
    let r : Row := ⟨⟨[.minus], .identifier "a"⟩, [(.power, ⟨[.minus], .identifier "b"⟩),
      (.op (.binary .mul), ⟨[], .identifier "c"⟩), (.pipe true, ⟨[.not], .identifier "d"⟩)]⟩
    let ts : List Token := (r.kinds ++ [TokenKind.endOfInput]).map fun k => ⟨k, default⟩
    r.nesting < maxNesting ∧ ts.map (·.kind) = r.kinds ++ [.endOfInput] ∧
    ∃ t head stages, ofTokens ts = ⟨some t, []⟩ ∧ t.reading = r.kinds ∧
      IsPipeOf t head stages ∧ stages.map (·.optional) = [true] ∧
      ∀ e ∈ head :: stages.map (·.body), e.AllGrouped ∧ ∀ k ∈ e.exposed, 0 < k := by
  intro r ts
  have hr : r.nesting < maxNesting := by decide
  have hts : ts.map (·.kind) = r.kinds ++ [.endOfInput] := rfl
  obtain ⟨t, head, stages, hreading, hpipe, hflags, hgrouped, hok, hhigh⟩ := row_grouped r hr hts
  refine ⟨hr, hts, t, head, stages, ?_, hreading, hpipe, hflags, hgrouped⟩
  rcases hdeep : t.deeperThan? maxHeight with _ | node
  · exact (hok hdeep).1
  · have htree : (ofTokens ts).tree.isSome = true := by decide +kernel
    rw [hhigh node hdeep] at htree
    cases htree

end ExprLang
