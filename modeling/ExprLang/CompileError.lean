import ExprLang.Json
import ExprLang.Problem
import ExprLang.Source.Frame

/-! Errors as they are reported, with the text they were found in, and logs of them. -/
namespace ExprLang

inductive ErrorCategory where
  | syntactic
  | scope
deriving DecidableEq, Repr

namespace ErrorCategory

def ofCode (code : Nat) : ErrorCategory := if 500 ≤ code ∧ code ≤ 599 then .scope else .syntactic

def text : ErrorCategory → String
  | syntactic => "syntax"
  | scope => "scope"

end ErrorCategory

structure CompileError where
  code : Nat
  category : ErrorCategory
  message : String
  -- The whole text the error was found in.
  expression : String
  span : Span
deriving DecidableEq, Repr

namespace CompileError

def ofCode (code : Nat) (message expression : String) (span : Span) : CompileError :=
  ⟨code, .ofCode code, message, expression, span⟩

def ofFinding (expression : String) (f : Finding) : CompileError :=
  ofCode f.problem.code f.problem.message expression f.span

def text (e : CompileError) : String :=
  e.span.text ++ ": E" ++ toString e.code ++ " [" ++ e.category.text ++ "] " ++ e.message

def frame (e : CompileError) : String := Source.codeFrame e.expression e.span

end CompileError

/-- Errors in the order they were found. Only the first ones are kept, but all are counted. -/
structure ErrorLog where
  kept : List CompileError
  total : Nat
deriving DecidableEq, Repr

namespace ErrorLog

/-- How many errors are kept; also the number at which reading stops. -/
def limit : Nat := 20

def empty : ErrorLog := ⟨[], 0⟩

def push (log : ErrorLog) (e : CompileError) : ErrorLog where
  kept := if log.kept.length < limit then log.kept ++ [e] else log.kept
  total := log.total + 1

def ofFindings (expression : String) (fs : List Finding) : ErrorLog :=
  fs.foldl (fun log f => log.push (.ofFinding expression f)) empty

def hasErrors (log : ErrorLog) : Bool := 0 < log.total

def first? (log : ErrorLog) : Option CompileError := log.kept.head?

end ErrorLog

end ExprLang
