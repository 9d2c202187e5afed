import ExprLang.Machine

/-!
What holds of an action whatever comes back to it: of the functions it makes and of its answers. A
plain host function never says where it failed, and makes only plain functions.
-/
namespace ExprLang

variable {φ ι α : Type}

namespace Request

/-- Every function made satisfies `P`, and every answer satisfies `Q`. -/
inductive All (P : φ → Prop) (Q : α → Prop) : Request φ ι α → Prop where
  | answer {a : α} (h : Q a) : All P Q (.answer a)
  | call {f : Value} {vs : List Value} {next : Except Fault Value → Request φ ι α}
    (h : ∀ r, All P Q (next r)) : All P Q (.call f vs next)
  | run {i : ι} {v : Value} {next : Except Fault Value → Request φ ι α}
    (h : ∀ r, All P Q (next r)) : All P Q (.run i v next)
  | fresh {next : Nat → Request φ ι α} (h : ∀ r, All P Q (next r)) : All P Q (.fresh next)
  | make {name : String} {f : φ} {next : Value → Request φ ι α} (hf : P f)
    (h : ∀ v, All P Q (next v)) : All P Q (.make name f next)
  | load {cell : Nat} {next : Value → Request φ ι α} (h : ∀ v, All P Q (next v)) :
    All P Q (.load cell next)
  | save {cell : Nat} {v : Value} {next : Request φ ι α} (h : All P Q next) :
    All P Q (.save cell v next)

end Request

/-- Whether an outcome leaves open where it failed. -/
def Unsited (r : Except Fault Value) : Prop := ∀ f, r = .error f → f.site = none

inductive HostFunction.Plain : HostFunction → Prop where
  | of {f : List Value → Hook (Except Fault Value)} (h : ∀ vs, (f vs).All Plain Unsited) :
    Plain (.of f)

end ExprLang
