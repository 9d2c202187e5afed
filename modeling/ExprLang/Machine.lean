import ExprLang.Host
import ExprLang.Scope

/-!
What a run consists of. It keeps the functions made so far, which values name by their handles, and
notes every question to a policy and every call of a host function. Calls are nested to a limited
depth; a run that would go deeper stops without an outcome, which is not the same as failing, and
leaves what it has done so far.
-/
namespace ExprLang

inductive Event where
  | truthy (v : Value)
  | property (target key : Value)
  | call (callee : Value) (arguments : Option (List Value))
  | resolve (name : String) (globals data : Option Value)
  | pipe (head : Value) (optionals : List Bool)
  | unary (op : UnaryOp) (v : Value)
  | binary (op : BinaryOp) (a b : Value)
  | logical (op : LogicalOp)
  | host (handle : Nat) (name : String) (arguments : List Value)

/-- What a function value stands for. Lambdas have bodies in `β`, and calls stand at places in
`π`. -/
inductive Callable (β π : Type) where
  | host (name : String) (function : HostFunction)
  | lambda (parameters : List String) (body : β) (env : Env)
  -- A call with some of its arguments still missing.
  | curried (place : π) (context : Context) (callee : Value) (slots : List (Option Value))

structure Store (β π : Type) where
  functions : Array (Callable β π)
  -- The next reference that is not in use.
  nextReference : Nat
  -- What host functions and policies keep from one call to the next.
  cells : Nat → Value
  -- What happened, the latest first.
  events : List Event

namespace Store

variable {β π α : Type}

def empty : Store β π := ⟨#[], 0, fun _ => .undefined, []⟩

def fresh (m : Value.Fresh α) (s : Store β π) : α × Store β π :=
  let (a, next) := m.run s.nextReference
  (a, { s with nextReference := next })

def addFunction (c : Callable β π) (s : Store β π) : Value × Store β π :=
  (.function s.functions.size, { s with functions := s.functions.push c })

def save (cell : Nat) (v : Value) (s : Store β π) : Store β π :=
  { s with cells := fun i => if i = cell then v else s.cells i }

end Store

/-- A computation in a run; none means that calls were nested too deeply. -/
abbrev Run (β π α : Type) : Type := OptionT (StateM (Store β π)) α

namespace Run

variable {β π α : Type}

def tooDeep : Run β π α := .fail

def note (e : Event) : Run β π Unit := modify fun w => { w with events := e :: w.events }

def reference : Run β π Nat := modifyGet (Store.fresh Value.Fresh.reference)

def newFunction (c : Callable β π) : Run β π Value := modifyGet (Store.addFunction c)

def callable? (handle : Nat) : Run β π (Option (Callable β π)) := do
  return (← get).functions[handle]?

def load (cell : Nat) : Run β π Value := do return (← get).cells cell

def save (cell : Nat) (v : Value) : Run β π Unit := modify (Store.save cell v)

theorem bind_apply {δ : Type} (m : Run β π α) (f : α → Run β π δ) (w : Store β π) :
    (m >>= f) w =
      match m w with
      | (some a, u) => f a u
      | (none, u) => (none, u) := by
  change (OptionT.bind m f) w = _
  simp only [OptionT.bind, OptionT.mk, Bind.bind, StateT.bind]
  rcases m w with ⟨_ | a, u⟩ <;> rfl

end Run

namespace Request

variable {β π ι α : Type}

def perform (call : Value → List Value → Run β π (Except Fault Value))
    (supply : ι → Value → Run β π (Except Fault Value)) : Action ι α → Run β π α
  | .answer a => return a
  | .call f vs next => do perform call supply (next (← call f vs))
  | .run i v next => do perform call supply (next (← supply i v))
  | .fresh next => do perform call supply (next (← Run.reference))
  | .make name f next => do perform call supply (next (← Run.newFunction (.host name f)))
  | .load cell next => do perform call supply (next (← Run.load cell))
  | .save cell v next => do
    Run.save cell v
    perform call supply next

end Request

abbrev Eval (β α : Type) : Type := ExceptT Fault (Run β Nat) α

abbrev Caller (β : Type) : Type := Value → List Value → Eval β Value

namespace Eval

variable {β α : Type}

def note (e : Event) : Eval β Unit := ExceptT.lift (Run.note e)

def reference : Eval β Nat := ExceptT.lift Run.reference

def newFunction (c : Callable β Nat) : Eval β Value := ExceptT.lift (Run.newFunction c)

def callable? (handle : Nat) : Eval β (Option (Callable β Nat)) :=
  ExceptT.lift (Run.callable? handle)

def claim (site : Nat) (r : Except EvalError α) : Eval β α :=
  .mk (return r.mapError (.atSite · site))

/-- Claims a fault for a site unless it was claimed further inside. -/
def within (site : Nat) (m : Eval β α) : Eval β α :=
  .mk do return (← m.run).mapError (·.orSite site)

def act {ι : Type} (call : Caller β) (supply : ι → Value → Eval β Value)
    (a : Action ι (Except Fault Value)) : Eval β Value :=
  .mk (a.perform (fun f vs => (call f vs).run) fun i v => (supply i v).run)

def ask (call : Caller β) (h : Hook α) : Eval β α :=
  ExceptT.lift (h.perform (fun f vs => (call f vs).run) fun i _ => nomatch i)

def noOperand : Empty → Value → Eval β Value := fun i => nomatch i

def callThrough (call : Caller β) (site : Nat) (c : Context) (callee : Value)
    (arguments : Option (List Value)) : Eval β Value := do
  note (.call callee arguments)
  within site (act call noOperand (c.policy.call callee arguments))

def lookup (call : Caller β) (site : Nat) (env : Env) (name : String) : Eval β Value := do
  match env.scope.lookup? name with
  | some v => return v
  | none =>
    note (.resolve name env.context.globals env.context.data)
    claim site (← ask call (env.resolve name))

def unary (call : Caller β) (site : Nat) (env : Env) (op : UnaryOp) (v : Value) :
    Eval β Value := do
  note (.unary op v)
  claim site (← ask call (env.context.policy.unary op v))

def binary (call : Caller β) (site : Nat) (env : Env) (op : BinaryOp) (a b : Value) :
    Eval β Value := do
  note (.binary op a b)
  claim site (← ask call (env.context.policy.binary op a b))

def property (call : Caller β) (site : Nat) (env : Env) (target key : Value) :
    Eval β Value := do
  note (.property target key)
  claim site (← ask call (env.context.policy.property target key))

def truthy (call : Caller β) (env : Env) (v : Value) : Eval β Bool := do
  note (.truthy v)
  ask call (env.context.policy.truthy v)

/-- Fills missing arguments in order; those that are not supplied are undefined. -/
def fill : List (Option Value) → List Value → List Value
  | [], _ => []
  | some v :: slots, vs => v :: fill slots vs
  | none :: slots, [] => .undefined :: fill slots []
  | none :: slots, v :: vs => v :: fill slots vs

def enter (run : Caller β → β → Env → Eval β Value) (call : Caller β) (handle : Nat)
    (vs : List Value) : Callable β Nat → Eval β Value
  | .host name f => do
    note (.host handle name vs)
    act call noOperand (f.respond vs)
  | .lambda parameters body env => run call body (env.bind parameters vs)
  | .curried site context callee slots =>
    callThrough call site context callee (some (fill slots vs))

/-- Calls a function value, with calls nested at most so deep. -/
def call (run : Caller β → β → Env → Eval β Value) : Nat → Caller β
  | 0, _, _ => ExceptT.lift Run.tooDeep
  | n + 1, .function h, vs => do
    match ← callable? h with
    | some c => enter run (call run n) h vs c
    | none => throw (.new (.unexpectedType ["function"] (.function h)))
  | _ + 1, v, _ => throw (.new (.unexpectedType ["function"] v))

end Eval

end ExprLang
