import ExprLang.CompileError.Codec
import ExprLang.Expr.Codec
import ExprLang.Expr.Evaluation
import ExprLang.Expr.Shape
import ExprLang.Expr.Walker
import ExprLang.Expr.Written
import ExprLang.Expression
import ExprLang.Proofs.ForeignFailures
import ExprLang.Proofs.Termination
import ExprLang.Value.Json
import ExprLang.Proofs.Tiling
import ExprLang.Proofs.Scoping.Probes
import ExprLang.Proofs.Parsing.Names
import ExprLang.Proofs.Scoping
import ExprLang.Proofs.Lexing
import ExprLang.Proofs.Parsing.Atoms
import ExprLang.Proofs.Precedence
import ExprLang.Proofs.Parsing.Expressible
import ExprLang.Proofs.Parsing.Lists
import ExprLang.Proofs.RoundTrip
import ExprLang.Proofs.Handover
import ExprLang.Proofs.FreeNames
import ExprLang.Proofs.BindingForms
import ExprLang.Proofs.Coverage
import ExprLang.Proofs.Respacing
import ExprLang.Proofs.ReadBack
import ExprLang.Proofs.Nesting
import ExprLang.Proofs.EntryPoints
import ExprLang.Proofs.Comparison.Exactness
import ExprLang.Proofs.Listings
import ExprLang.Proofs.Arithmetic
import ExprLang.Proofs.RepeatedNames
import ExprLang.Proofs.Lexing.Surrogates
import ExprLang.Proofs.Lexing.Hexadecimals
import ExprLang.Proofs.Lexing.WrittenNumbers
import ExprLang.Proofs.Doubles.Wholes
import ExprLang.Proofs.Membership
import ExprLang.Proofs.Documents.Serializers
import ExprLang.Proofs.Documents.Conversion
import ExprLang.Proofs.Lexing.Strays
import ExprLang.Proofs.Recovery
import ExprLang.Proofs.Parsing.Tracks
import ExprLang.Proofs.Parsing.Walks
import ExprLang.Proofs.Totality
import ExprLang.Proofs.Lines
import ExprLang.Proofs.DepthSearch
import ExprLang.Proofs.Frames
import ExprLang.Proofs.Frames.Carets
import ExprLang.Proofs.Frames.Additions
import ExprLang.Proofs.LambdaHeaders
