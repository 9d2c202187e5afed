import ExprLang.Operation.Coercion

/-! Reading properties, testing for them, and joining texts. -/
namespace ExprLang.Value

/-- The property under a key, undefined when there is none. Reading from `null` or `undefined` gives
that value. -/
def property (target key : Value) : Except EvalError Value :=
  if target.isNullish then .ok target
  else if !target.isObject then .error (.unexpectedType ["object"] target)
  else match key.propertyKey? with
    | none => .error (.unexpectedType ["simple type object key"] key)
    | some k => .ok ((target.ownProperty? k).getD .undefined)

def hasKey (key target : Value) : Except EvalError Value :=
  match key.propertyKey? with
  | some k =>
    if target.isObject then .ok (.bool (target.hasOwnProperty k))
    else .error (.invalidInOperands key.kind target.kind)
  | none => .error (.invalidInOperands key.kind target.kind)

def concat (a b : Value) : Value := .string (a.text ++ b.text)

end ExprLang.Value
