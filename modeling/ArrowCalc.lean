import ArrowCalc.CommandLine
import ArrowCalc.CommandLine.Basic
import ArrowCalc.Decimal.Basic
import ArrowCalc.Decimal.Shortest
import ArrowCalc.Error
import ArrowCalc.Expr
import ArrowCalc.Expr.JavaScript
import ArrowCalc.Expr.Outline
import ArrowCalc.Expr.Parser
import ArrowCalc.Lexeme
import ArrowCalc.Literal
import ArrowCalc.Machine
import ArrowCalc.Main
import ArrowCalc.Mode
import ArrowCalc.Number
import ArrowCalc.Scopes
import ArrowCalc.Span
import ArrowCalc.Text.Blank
import ArrowCalc.Text.Lines
import ArrowCalc.Token
import ArrowCalc.Token.Marking
import ArrowCalc.Token.Stream
import ArrowCalc.Value
import ArrowCalc.Proofs.Marking
import ArrowCalc.Proofs.Grammar
import ArrowCalc.Proofs.Parser.Verdict
import ArrowCalc.Proofs.Parser.Soundness
import ArrowCalc.Proofs.Parser.Acceptance
import ArrowCalc.Proofs.Grammar.Translation
import ArrowCalc.Proofs.Surface
import ArrowCalc.Proofs.Reference
import ArrowCalc.Proofs.Refinement
import ArrowCalc.Proofs.Parser.Locality
import ArrowCalc.Proofs.Parser.Expectation
import ArrowCalc.Proofs.Parser.Diagnosis
import ArrowCalc.Proofs.WellFormed
import ArrowCalc.Proofs.Canonical
import ArrowCalc.Proofs.JavaScript.Tokens
import ArrowCalc.Proofs.Normalization
import ArrowCalc.Proofs.JavaScript.Reading
import ArrowCalc.Proofs.JavaScript.Emission
import ArrowCalc.Proofs.Frames
import ArrowCalc.Proofs.Lexeme.LongestMatch
import ArrowCalc.Proofs.Lexeme.Denotation
import ArrowCalc.Proofs.Lexeme.Delimiters
import ArrowCalc.Proofs.Parser.Places
import ArrowCalc.Proofs.Layout
import ArrowCalc.Proofs.Writers
import ArrowCalc.Proofs.Composition
import ArrowCalc.Proofs.Limits
import ArrowCalc.Proofs.Sessions
import ArrowCalc.Proofs.Parentheses
import ArrowCalc.Proofs.Reports
import ArrowCalc.Proofs.JavaScript.Declarations
import ArrowCalc.Proofs.Parser.Climbing
import ArrowCalc.Proofs.Parser.Resumption
import ArrowCalc.Proofs.Lexeme.Occurrences
import ArrowCalc.Proofs.Lexeme.Tiling
import ArrowCalc.Proofs.JavaScript.Appending
import ArrowCalc.Proofs.Faults
import ArrowCalc.Proofs.Outline.Listing
import ArrowCalc.Proofs.Outline.Decoding
import ArrowCalc.Proofs.JavaScript.Indentation
import ArrowCalc.Proofs.Outline.Sessions
import ArrowCalc.Proofs.Histories
import ArrowCalc.Proofs.Integers
import ArrowCalc.Proofs.Decimal.Rounding
import ArrowCalc.Proofs.Decimal.Shortest
import ArrowCalc.Proofs.Decimal.Doubles
import ArrowCalc.Proofs.Decimal.Layout
import ArrowCalc.Proofs.Numbers
import ArrowCalc.Proofs.Decimal.Arithmetic
import ArrowCalc.Proofs.Floats
import ArrowCalc.Proofs.Decimal.Integral
import ArrowCalc.Proofs.Interaction
import ArrowCalc.Proofs.Parser.Progress
import ArrowCalc.Proofs.SelfEvaluation
