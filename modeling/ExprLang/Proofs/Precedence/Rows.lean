import ExprLang.Proofs.Parsing.Atoms
import ExprLang.Proofs.Positions

/-!
Rows of operands with operators between them, and how a tree groups such a row. Read from left to
right a tree gives the row back; what it adds is which operators belong together.
-/
namespace ExprLang

structure Operand where
  prefixes : List UnaryOp
  atom : Atom

def Operand.kinds (o : Operand) : List TokenKind := o.prefixes.map (·.token) ++ [o.atom.token]

def InfixOp.token : InfixOp → TokenKind
  | coalesce => .symbol .questionQuestion
  | logical op => op.token
  | binary op => op.token

/-- What may stand between two operands. -/
inductive Joint where
  | pipe (optional : Bool)
  | op (op : InfixOp)

namespace Joint

def token : Joint → TokenKind
  | pipe optional => .symbol (if optional then .pipeQuestion else .pipe)
  | op o => o.token

def power : Joint := .op (.binary .pow)

/-- Operators with a greater number bind tighter. -/
def tightness : Joint → Nat
  | pipe _ => 0
  | op .coalesce => 1
  | op (.logical .or) => 2
  | op (.logical .and) => 3
  | op (.binary .eq) | op (.binary .notEq) => 4
  | op (.binary .less) | op (.binary .lessEq) | op (.binary .greater)
  | op (.binary .greaterEq) | op (.binary .in_) => 5
  | op (.binary .concat) => 6
  | op (.binary .add) | op (.binary .sub) => 7
  | op (.binary .mul) | op (.binary .div) | op (.binary .mod) => 8
  | op (.binary .pow) => 10

/-- Prefix operators bind tighter than all infix operators but the power. -/
def prefixTightness : Nat := 9

def optional? : Joint → Option Bool
  | pipe optional => some optional
  | op _ => none

end Joint

abbrev Joined : Type := List (Joint × Operand)

namespace Joined

def kinds (rest : Joined) : List TokenKind := rest.flatMap fun p => p.1.token :: p.2.kinds

/-- Whether each stage of the pipe is optional. -/
def flags (rest : Joined) : List Bool := rest.filterMap (·.1.optional?)

end Joined

/-- Operands with something between any two neighbours. -/
structure Row where
  first : Operand
  rest : Joined

namespace Row

def kinds (r : Row) : List TokenKind := r.first.kinds ++ r.rest.kinds

/-- How many prefix operators and powers come one after another from an operand on. -/
def chain (o : Operand) : Joined → Nat
  | [] => o.prefixes.length
  | (.op (.binary .pow), o') :: rest => o.prefixes.length + 1 + chain o' rest
  | _ :: _ => o.prefixes.length

def longestChain (o : Operand) : Joined → Nat
  | [] => chain o []
  | (j, o') :: rest => max (chain o ((j, o') :: rest)) (longestChain o' rest)

/-- Prefix operators and powers nest; other operators of a row do not. -/
def nesting (r : Row) : Nat := longestChain r.first r.rest

end Row

namespace Expr

mutual

/-- The tokens of a tree from left to right, without parentheses. -/
def reading : Expr → List TokenKind
  | .literal _ l => [l.token]
  | .identifier _ name => [.identifier name]
  | .topic _ => [.symbol .percent]
  | .unary _ op argument => op.token :: argument.reading
  | .binary _ op left right => left.reading ++ op.token :: right.reading
  | .logical _ op left right => left.reading ++ op.token :: right.reading
  | .coalesce _ left right => left.reading ++ .symbol .questionQuestion :: right.reading
  | .pipe _ head stages => head.reading ++ stagesReading stages
  | _ => []

def stagesReading : List (Stage Expr) → List TokenKind
  | [] => []
  | ⟨optional, body⟩ :: ss => (Joint.pipe optional).token :: body.reading ++ stagesReading ss

end

mutual

/-- How tightly the operators of a tree bind that are not inside the argument of a prefix
operator. -/
def exposed : Expr → List Nat
  | .unary .. => [Joint.prefixTightness]
  | .binary _ op left right =>
    left.exposed ++ (Joint.op (.binary op)).tightness :: right.exposed
  | .logical _ op left right =>
    left.exposed ++ (Joint.op (.logical op)).tightness :: right.exposed
  | .coalesce _ left right => left.exposed ++ (Joint.op .coalesce).tightness :: right.exposed
  | .pipe _ head stages => head.exposed ++ stagesExposed stages
  | _ => []

def stagesExposed : List (Stage Expr) → List Nat
  | [] => []
  | ⟨optional, body⟩ :: ss =>
    (Joint.pipe optional).tightness :: body.exposed ++ stagesExposed ss

end

def IsAtom : Expr → Prop
  | .literal .. | .identifier .. | .topic _ => True
  | _ => False

/-- Prefix operators and powers, up to the last operand to the right. -/
inductive PowerChain : Expr → Prop where
  | atom {e : Expr} (h : e.IsAtom) : PowerChain e
  | unary {e : Expr} (span : Span) (op : UnaryOp) (h : PowerChain e) :
    PowerChain (.unary span op e)
  | power {left right : Expr} (span : Span) (hleft : left.IsAtom) (hright : PowerChain right) :
    PowerChain (.binary span .pow left right)

/-- The operators on the left bind at least as tightly, those on the right tighter. -/
def Between (j : Joint) (left right : Expr) : Prop :=
  (∀ t ∈ left.exposed, j.tightness ≤ t) ∧ ∀ t ∈ right.exposed, j.tightness < t

/-- An operator has the operands that belong to it. Nothing binds tighter than a power, so there
are no operators on its left; on its right there are the prefix operators and powers that follow. -/
def Grouped : Expr → Prop
  | .literal .. | .identifier .. | .topic _ => True
  | .unary _ _ argument => argument.PowerChain
  | .binary _ .pow left right => left.IsAtom ∧ right.PowerChain
  | .binary _ op left right => Between (.op (.binary op)) left right
  | .logical _ op left right => Between (.op (.logical op)) left right
  | .coalesce _ left right => Between (.op .coalesce) left right
  | _ => False

def AllGrouped (e : Expr) : Prop := ∀ n, e.HasNode n → n.Grouped

variable {e left right : Expr}

theorem AllGrouped.node (h : e.Grouped) (hc : ∀ c ∈ e.children, c.AllGrouped) : e.AllGrouped :=
  forall_hasNode h hc

theorem IsAtom.exposed_eq (h : e.IsAtom) : e.exposed = [] := by
  cases e <;> first | rfl | exact h.elim

theorem IsAtom.allGrouped (h : e.IsAtom) : e.AllGrouped := by
  cases e <;> first | exact h.elim | exact .node trivial (List.forall_mem_nil _)

theorem PowerChain.allGrouped (h : e.PowerChain) : e.AllGrouped := by
  induction h with
  | atom h => exact h.allGrouped
  | unary span op h ih => exact .node h (List.forall_mem_singleton.2 ih)
  | power span hleft hright ih =>
    refine .node ⟨hleft, hright⟩ (List.forall_mem_cons.2 ⟨hleft.allGrouped, ?_⟩)
    exact List.forall_mem_singleton.2 ih

/-- Only prefix operators and powers are exposed in their chains. -/
theorem PowerChain.le_of_mem_exposed (h : e.PowerChain) :
    ∀ t ∈ e.exposed, Joint.prefixTightness ≤ t := by
  induction h with
  | atom h => simp [h.exposed_eq]
  | unary span op h ih => exact List.forall_mem_singleton.2 (Nat.le_refl _)
  | power span hleft hright ih =>
    rw [exposed, hleft.exposed_eq, List.nil_append]
    exact List.forall_mem_cons.2 ⟨by decide, ih⟩

section Node

variable {op : InfixOp} {span : Span}

theorem reading_node : (op.node span left right).reading =
    left.reading ++ op.token :: right.reading := by
  cases op <;> rfl

theorem exposed_node : (op.node span left right).exposed =
    left.exposed ++ (Joint.op op).tightness :: right.exposed := by
  cases op <;> rfl

theorem children_node : (op.node span left right).children = [left, right] := by
  cases op <;> rfl

theorem grouped_node (hop : op ≠ .binary .pow) (h : Between (.op op) left right) :
    (op.node span left right).Grouped := by
  cases op with
  | binary op =>
    cases op with
    | pow => exact absurd rfl hop
    | _ => exact h
  | _ => exact h

end Node

end Expr

namespace Row

theorem chain_le_longestChain (o : Operand) (rest : Joined) :
    chain o rest ≤ longestChain o rest := by
  cases rest with
  | nil => exact Nat.le_refl _
  | cons p rest => exact Nat.le_max_left _ _

theorem longestChain_le_append {o o' : Operand} {j : Joint} (before : Joined) {rest : Joined} :
    longestChain o' rest ≤ longestChain o (before ++ (j, o') :: rest) := by
  induction before generalizing o with
  | nil => exact Nat.le_max_right _ _
  | cons p before ih => exact Nat.le_trans ih (Nat.le_max_right _ _)

end Row

end ExprLang
