import ExprLang.Value

/-! Why an evaluation fails, and where. -/
namespace ExprLang

inductive EvalError where
  -- An operand, key or callee of an unacceptable kind, with the acceptable ones.
  | unexpectedType (expected : List String) (received : Value)
  | unknownIdentifier (name : String)
  | unboundTopic
  | invalidInOperands (key target : String)
  | mixedNumeric
  | range (message : String)
  -- Reported by a host function or by a policy.
  | host (message : String)

namespace EvalError

def alternatives : List String → String
  | [] => ""
  | [s] => s
  | s :: ss => ", ".intercalate (s :: ss.dropLast) ++ " or " ++ (ss.getLast?.getD "")

def message : EvalError → String
  | unexpectedType expected received =>
    "Expected " ++ alternatives expected ++ ", but got " ++ received.kind ++ " instead"
  | unknownIdentifier name => "Unknown identifier - " ++ name
  | unboundTopic => "Topic reference \"%\" is unbound; it must be inside a pipe body."
  | invalidInOperands key target =>
    "Cannot use \"in\" operator to search for " ++ key ++ " key in " ++ target
  | mixedNumeric => "Cannot mix BigInt and other types, use explicit conversions"
  | range message | host message => message

end EvalError

/-- An error on its way out of an evaluation. Its site is the innermost place in the listing that
claimed it. -/
structure Fault where
  error : EvalError
  site : Option Nat

namespace Fault

def new (error : EvalError) : Fault := ⟨error, none⟩

def atSite (error : EvalError) (site : Nat) : Fault := ⟨error, some site⟩

/-- Claims a fault that no inner place has claimed. -/
def orSite (f : Fault) (site : Nat) : Fault := { f with site := f.site.or (some site) }

end Fault

end ExprLang
