import Calculator.Main
import Calculator.Proofs.Evaluation.Deepest
import Calculator.Proofs.Parser.FirstFault
import Calculator.Proofs.Session.Reports
import Calculator.Proofs.Evaluation.Exact
import Calculator.Proofs.Decimal.Shortest
import Calculator.Proofs.Decimal.Layout
import Calculator.Proofs.Token.Literal
import Calculator.Proofs.Token.Spelling
import Calculator.Proofs.Number.Text
import Calculator.Proofs.Expr.Text
import Calculator.Proofs.Calculation
import Calculator.Proofs.Token.Pattern
import Calculator.Proofs.Token.Match
import Calculator.Proofs.Token.LongestMatch
import Calculator.Proofs.Token.Filler
import Calculator.Proofs.Token.Placement
import Calculator.Proofs.Token.Span
import Calculator.Proofs.Columns
import Calculator.Proofs.Insertion
import Calculator.Proofs.Evaluation.Narrowing
import Calculator.Proofs.Parser.Limit
import Calculator.Proofs.Evaluation.Limit
import Calculator.Proofs.Evaluation.Calls
import Calculator.Proofs.Token.Lines
import Calculator.Proofs.Session.Lines
import Calculator.Proofs.Number.Powers
import Calculator.Proofs.Double.Nearest
import Calculator.Proofs.Double.Scaling
import Calculator.Proofs.Double.Value
import Calculator.Proofs.Number.ScaledQuotient
import Calculator.Proofs.Number.Division
import Calculator.Proofs.Double.Operations
import Calculator.Proofs.Double.FloorDivision
import Calculator.Proofs.Number.Agreement
import Calculator.Proofs.Token.Denotation
import Calculator.Proofs.Token.Meaning
import Calculator.Proofs.Padding
import Calculator.Proofs.Session.OneShot
import Calculator.Proofs.Number.Failures
import Calculator.Proofs.Double.Power
import Calculator.Proofs.Number.FloatPowers
import Calculator.Proofs.Decimal.Leading
import Calculator.Proofs.Number.Notation
import Calculator.Proofs.Parser.Depth
import Calculator.Proofs.Token.Numeral
import Calculator.Proofs.Double.ScalingEnd
