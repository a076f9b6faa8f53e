import NetSpec.Compiler.Basic
import NetSpec.Compiler.Configuration
import NetSpec.Compiler.Diary
import NetSpec.Compiler.Value
import NetSpec.Constraint.Branches
import NetSpec.Constraint.LinearForm
import NetSpec.Constraint.Scalar
import NetSpec.Number.Binary64
import NetSpec.Number.Decimal
import NetSpec.Number.Layout
import NetSpec.Number.Shortest
import NetSpec.Proofs.Compiler.Component
import NetSpec.Proofs.Compiler.Evaluation
import NetSpec.Proofs.Compiler.Keys
import NetSpec.Proofs.Compiler.Reachable
import NetSpec.Proofs.Compiler.Runs
import NetSpec.Proofs.Compiler.Sizes
import NetSpec.Proofs.Constraint.Coefficients
import NetSpec.Proofs.Constraint.Nonzero
import NetSpec.Proofs.Constraint.NormalForm
import NetSpec.Proofs.Exact.Compilation
import NetSpec.Proofs.Exact.LinearForm
import NetSpec.Proofs.Exact.Meaning
import NetSpec.Proofs.Exact.Properties
import NetSpec.Proofs.Exact.Region
import NetSpec.Proofs.Number.Bits
import NetSpec.Proofs.Number.Level
import NetSpec.Proofs.Number.Nearest
import NetSpec.Proofs.Number.Spelling
import NetSpec.Proofs.Number.Zero
import NetSpec.Proofs.Order.Branches
import NetSpec.Proofs.Order.Compilation
import NetSpec.Proofs.Order.Numbering
import NetSpec.Proofs.Order.Regions
import NetSpec.Proofs.Order.Renumbering
import NetSpec.Proofs.Property.Joined
import NetSpec.Proofs.Property.Levels
import NetSpec.Proofs.Property.Role
import NetSpec.Proofs.Result
import NetSpec.Proofs.Script.Acceptance
import NetSpec.Proofs.Script.Completeness
import NetSpec.Proofs.Script.Dialect
import NetSpec.Proofs.Script.Expectation
import NetSpec.Proofs.Script.Grammar
import NetSpec.Proofs.Script.Literal
import NetSpec.Proofs.Script.Phrases
import NetSpec.Proofs.Script.Recognition
import NetSpec.Proofs.Script.RoundTrip
import NetSpec.Proofs.Script.Soundness
import NetSpec.Proofs.Script.Step
import NetSpec.Proofs.Script.Stream
import NetSpec.Proofs.Script.Term
import NetSpec.Proofs.Script.Tokens
import NetSpec.Proofs.Token.Dialect
import NetSpec.Proofs.Token.Language
import NetSpec.Proofs.Token.Lexeme
import NetSpec.Proofs.Token.Lexing
import NetSpec.Proofs.Token.Scanning
import NetSpec.Proofs.Token.Splitting
import NetSpec.Proofs.Token.Taken
import NetSpec.Property.Basic
import NetSpec.Property.CompileError
import NetSpec.Property.Interval
import NetSpec.Property.Region
import NetSpec.Script.Basic
import NetSpec.Script.Literal
import NetSpec.Script.Parser
import NetSpec.Script.Printer
import NetSpec.Script.Scope
import NetSpec.Script.Symbol
import NetSpec.Script.SyntaxError
import NetSpec.Script.Walk
import NetSpec.Specification
import NetSpec.Text.Hidden
import NetSpec.Text.Position
import NetSpec.Text.Quoted
import NetSpec.Text.Source
import NetSpec.Token.Basic
import NetSpec.Token.Lexer
import NetSpec.Token.Scan
import NetSpec.Proofs.Script.Concatenation
import NetSpec.Proofs.Script.Postorder
import NetSpec.Proofs.Order.Histories
import NetSpec.Proofs.Token.Cut
import NetSpec.Proofs.Script.Cut
import NetSpec.Proofs.Compiler.Failure
import NetSpec.Proofs.Property.Grouping
import NetSpec.Proofs.Number.Quotient
import NetSpec.Proofs.Property.Refusal
import NetSpec.Proofs.Property.Tightest
import NetSpec.Proofs.Property.Assembly
import NetSpec.Proofs.Compiler.Postorder
import NetSpec.Proofs.Compiler.Connectives
import NetSpec.Proofs.Compiler.Session
import NetSpec.Proofs.Exact.Canonicity
import NetSpec.Proofs.Order.Sessions
import NetSpec.Proofs.Compiler.Table
import NetSpec.Proofs.Token.Places
import NetSpec.Proofs.Token.Ending
import NetSpec.Proofs.Token.Reading
import NetSpec.Proofs.Script.Progress
import NetSpec.Proofs.Number.Rounding
import NetSpec.Proofs.Script.Radix
import NetSpec.Proofs.Script.Constants
import NetSpec.Proofs.Script.Denotation
