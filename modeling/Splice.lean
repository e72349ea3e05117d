import Splice.Main
import Splice.Proofs.Expr.Tree
import Splice.Proofs.Grammar
import Splice.Proofs.Parsing
import Splice.Proofs.Binary64.Rounding
import Splice.Proofs.Binary64.Text
import Splice.Proofs.Json
import Splice.Proofs.Value
import Splice.Proofs.Printing
import Splice.Proofs.JavaScript
import Splice.Proofs.Expr.Script
import Splice.Proofs.Expr.Meaning
import Splice.Proofs.Expr.Grouping
import Splice.Proofs.Program
import Splice.Proofs.Scanning
import Splice.Proofs.RoundTrip
import Splice.Proofs.Columns
import Splice.Proofs.Lines
import Splice.Proofs.Passes
import Splice.Proofs.Streams
import Splice.Proofs.Outcome
import Splice.Proofs.Prefixes
import Splice.Proofs.Misfits
import Splice.Proofs.OneLine
import Splice.Proofs.Command
import Splice.Proofs.Session
import Splice.Proofs.Malformed
import Splice.Proofs.Excerpts
import Splice.Proofs.Templates
import Splice.Proofs.Token.Rendering
import Splice.Proofs.Token.Reports
import Splice.Proofs.Token.Tiling
import Splice.Proofs.Carets
import Splice.Proofs.Binary64.Nearest
import Splice.Proofs.Binary64.Numerals
import Splice.Proofs.Binary64.Overflow
import Splice.Proofs.Binary64.Literals
import Splice.Proofs.Expr.Constants
import Splice.Proofs.Numbers
import Splice.Proofs.Layout
import Splice.Proofs.Expr.Nesting
import Splice.Proofs.Expr.Operands
import Splice.Proofs.Token.Record
import Splice.Proofs.Token.Region
import Splice.Proofs.Token.Greedy
import Splice.Proofs.Text.Subparts
import Splice.Proofs.Offsets
import Splice.Proofs.Token.Turns
import Splice.Proofs.Progress
