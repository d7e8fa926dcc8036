import Parlance.Double.Basic
import Parlance.Double.Shortest
import Parlance.Text.Printable
import Parlance.Text.Quoted
import Parlance.Text.Similar
import Parlance.Text.Blank
import Parlance.Text.Stream
import Parlance.Expression.Basic
import Parlance.Expression.Printer
import Parlance.Value
import Parlance.Outline
import Parlance.Cursor
import Parlance.Fault
import Parlance.Action.Basic
import Parlance.Action.Primitive
import Parlance.Action.Combinator
import Parlance.Parser.Basic
import Parlance.Parser.Forward
import Parlance.Diagnostic
import Parlance.Grammar
import Parlance.Session
import Parlance.Toml.Basic
import Parlance.Toml.Document
import Parlance.Toml.Lexeme
import Parlance.Toml.Scalar
import Parlance.Toml.Reader
import Parlance.FileTree
import Parlance.Config
import Parlance.Command.Line
import Parlance.Command.Help
import Parlance.Command.Run
import Parlance.Main
import Parlance.Proofs.Reading
import Parlance.Proofs.Phrase
import Parlance.Proofs.Token
import Parlance.Proofs.Soundness
import Parlance.Proofs.Completeness
import Parlance.Proofs.Recognition
import Parlance.Proofs.LongestPrefix
import Parlance.Proofs.Rounding
import Parlance.Proofs.DecimalText
import Parlance.Proofs.DoubleText
import Parlance.Proofs.RoundTrip
import Parlance.Proofs.Readability
import Parlance.Proofs.Quotation
import Parlance.Proofs.Stream
import Parlance.Proofs.OutlineFidelity
import Parlance.Proofs.CommandRun
import Parlance.Proofs.Backtracking
import Parlance.Proofs.Agreement
import Parlance.Proofs.Effect
import Parlance.Proofs.Locality
import Parlance.Proofs.CursorInvariant
import Parlance.Proofs.Budget
import Parlance.Proofs.Termination
import Parlance.Proofs.Lookahead
import Parlance.Proofs.NestingLimit
import Parlance.Proofs.Conservativity
import Parlance.Proofs.Spacing
import Parlance.Proofs.Substitution
import Parlance.Proofs.SingleAssignment
import Parlance.Proofs.Progress
import Parlance.Proofs.Consumption
import Parlance.Proofs.Settling
import Parlance.Proofs.GuardedRecursion
import Parlance.Proofs.Transparency
import Parlance.Proofs.Bracketing
import Parlance.Proofs.Indentation
import Parlance.Proofs.NearestConfig
import Parlance.Proofs.OperatorChain
import Parlance.Proofs.Repetition
import Parlance.Proofs.Scanning
import Parlance.Proofs.Refactoring
import Parlance.Proofs.LiteralMatch
import Parlance.Proofs.Dispatch
import Parlance.Proofs.NumberLiteral
