import ExprLang.Code.Run
import ExprLang.Expr.Check
import ExprLang.Expr.Parser
import ExprLang.Policy.Standard

/-!
Compiled expressions: from a text or a tree to code that can be evaluated any number of times, and
from a fault back to the place in the text.
-/
namespace ExprLang

structure Options where
  globals : Option Value
  policy : Policy

namespace Options

def standard : Options := ⟨none, .standard⟩

end Options

structure ExpressionError where
  cause : Fault
  expression : String
  location : Option Span

namespace ExpressionError

def message (e : ExpressionError) : String := e.cause.error.message

def frame? (e : ExpressionError) : Option String :=
  e.location.map fun span => Source.codeFrame e.expression span

end ExpressionError

structure Expression where
  source : String
  fragments : List Fragment
  code : Code
  options : Options

namespace Expression

def ofTree (tree : Expr) (source : String) (options : Options) : Except TreeError Expression :=
  match tree.rejection? with
  | some f => .error (f.report source)
  | none => .ok ⟨source, tree.layout, tree.compile 0, options⟩

def ofTreeText (tree source : String) (options : Options) : Except TreeError Expression :=
  match Expr.read? tree with
  | none => .error .malformed
  | some e => ofTree e source options

def compile (source : String) (options : Options) : Except TreeError Expression :=
  match Expr.parse source with
  | .ok e => ofTree e source options
  | .error log =>
    match log.first? with
    | some e => .error (.found e)
    | none => .error .noTree

def listing (e : Expression) : List Char := Fragment.join e.fragments

def table (e : Expression) : SpanTable := Fragment.table e.fragments

def env (e : Expression) (data : Option Value) : Env :=
  .ofContext ⟨e.options.policy, e.options.globals, data⟩

/-- Puts a fault down to the span its site belongs to. Faults of functions that the expression made
can be explained after its evaluation as well. -/
def explain (e : Expression) (f : Fault) : ExpressionError :=
  ⟨f, e.source, f.site.bind e.table.locate?⟩

/-- Evaluates an expression in a run, with calls nested at most so deep. -/
def evaluate (e : Expression) (depth : Nat) (data : Option Value) (w : Store Code Nat) :
    Option (Except ExpressionError Value) × Store Code Nat :=
  (e.code.eval depth (e.env data) w).map (·.map (·.mapError e.explain)) id

end Expression

/-- The outcome of a compilation with every error that is kept. -/
structure CompileResult where
  success : Bool
  errors : List CompileError
  listing : Option (List Char)
  table : Option SpanTable
  -- Why a tree was refused that is not at fault for an error of its text.
  internalError : Option String

namespace CompileResult

def failed (errors : List CompileError) : CompileResult := ⟨false, errors, none, none, none⟩

def ofTree (tree : Expr) (source : String) (options : Options) : CompileResult :=
  match Expression.ofTree tree source options with
  | .ok e => ⟨true, [], some e.listing, some e.table, none⟩
  | .error (.found e) => failed [e]
  | .error e => ⟨false, [], none, none, some e.message⟩

def compile (source : String) (options : Options) : CompileResult :=
  match Expr.parse source with
  | .ok e => ofTree e source options
  | .error log => failed log.kept

end CompileResult

end ExprLang
