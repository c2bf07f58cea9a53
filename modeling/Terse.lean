import Terse.Analysis
import Terse.Command.FileSystem
import Terse.Command.Options
import Terse.Command.Run
import Terse.CompileError
import Terse.Dump
import Terse.Emit.Code
import Terse.Emit.Fault
import Terse.Emit.Name
import Terse.Emit.Quote
import Terse.Grammar.Basic
import Terse.Grammar.Chart
import Terse.Grammar.Language
import Terse.Graph
import Terse.Line
import Terse.Literal
import Terse.Main
import Terse.Node
import Terse.Number.Basic
import Terse.Number.Binary
import Terse.Number.Fold
import Terse.Number.Numeral
import Terse.Number.Shortest
import Terse.Operator
import Terse.Outline
import Terse.Parse
import Terse.Pipeline
import Terse.Proofs.Node.Formed
import Terse.Sample
import Terse.Scope
import Terse.Simplify
import Terse.Source.Lexer
import Terse.Source.Loc
import Terse.Source.Token
import Terse.Symbol
import Terse.Text.CodePoint
import Terse.Text.Digit
import Terse.Text.Printable
import Terse.Text.Quoted
import Terse.Text.Utf8
import Terse.Tree
import Terse.Proofs.Node.Scoping
import Terse.Proofs.Run.Basic
import Terse.Proofs.Run.Simplified
import Terse.Proofs.Analysis.Formed
import Terse.Proofs.Analysis.Scoped
import Terse.Proofs.Emit.Total
import Terse.Proofs.Node.Idempotent
import Terse.Proofs.Pipeline.Total
import Terse.Proofs.Analysis.Accepted
import Terse.Proofs.Analysis.Placed
import Terse.Proofs.JavaScript.Grouping
import Terse.Proofs.Analysis.Numbered
import Terse.Proofs.Analysis.Written
import Terse.Proofs.Grammar.Outcome
import Terse.Proofs.Emit.Hygiene
import Terse.Proofs.Node.Exact
import Terse.Proofs.Node.Effects
import Terse.Proofs.Pipeline.Located
import Terse.Proofs.Renaming.Analyzed
import Terse.Proofs.Node.Literals
import Terse.Proofs.Node.Normal
import Terse.Proofs.Node.Observed
import Terse.Proofs.Source.Units
import Terse.Proofs.Analysis.Framed
import Terse.Proofs.JavaScript.Brackets
import Terse.Proofs.Emit.Layout
import Terse.Proofs.Emit.Numeral
import Terse.Proofs.Scope.Forest
import Terse.Proofs.Source.Pieces
import Terse.Proofs.Outline.Dumped
import Terse.Proofs.Outline.Drawn
import Terse.Proofs.Command.Run
