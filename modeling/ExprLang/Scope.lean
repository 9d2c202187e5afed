import ExprLang.Policy

/-! What the names of an expression stand for while it is evaluated. -/
namespace ExprLang

/-- Names with their values. A name without a value is undefined. -/
structure Frame where
  names : List String
  values : List Value

abbrev Scope : Type := List Frame

namespace Frame

def lookup? (f : Frame) (name : String) : Option Value :=
  (f.names.findIdx? (· == name)).map fun i => (f.values[i]?).getD .undefined

end Frame

namespace Scope

def lookup? (s : Scope) (name : String) : Option Value := s.findSome? (·.lookup? name)

end Scope

structure Context where
  policy : Policy
  globals : Option Value
  data : Option Value

structure Env where
  context : Context
  scope : Scope

namespace Env

def ofContext (c : Context) : Env := ⟨c, []⟩

def push (env : Env) (f : Frame) : Env := { env with scope := f :: env.scope }

/-- Binds parameters by position. Arguments past the last parameter are dropped, and without
parameters there is no frame. -/
def bind (env : Env) (parameters : List String) (vs : List Value) : Env :=
  if parameters.isEmpty then env else env.push ⟨parameters, vs.take parameters.length⟩

def resolve (env : Env) (name : String) : Hook (Except EvalError Value) :=
  env.context.policy.resolve name env.context.globals env.context.data

def lookup (env : Env) (name : String) : Hook (Except EvalError Value) :=
  match env.scope.lookup? name with
  | some v => .answer (.ok v)
  | none => env.resolve name

def topic (env : Env) : Except EvalError Value :=
  match env.scope.lookup? topicName with
  | some v => .ok v
  | none => .error .unboundTopic

end Env

end ExprLang
