import MonteCarloSheet.CommandLine.Definition
import MonteCarloSheet.CommandLine.Options
import MonteCarloSheet.CommandLine.Run
import MonteCarloSheet.Formula.Evaluation
import MonteCarloSheet.Formula.Expr
import MonteCarloSheet.Formula.Lexer
import MonteCarloSheet.Formula.Operator
import MonteCarloSheet.Formula.Parser
import MonteCarloSheet.Formula.Token
import MonteCarloSheet.Main
import MonteCarloSheet.Number.Binary64
import MonteCarloSheet.Number.Digits
import MonteCarloSheet.Number.Layout
import MonteCarloSheet.Number.Order
import MonteCarloSheet.Number.Power
import MonteCarloSheet.Number.Rank
import MonteCarloSheet.Number.Reader
import MonteCarloSheet.Number.Whole
import MonteCarloSheet.Problem
import MonteCarloSheet.Proofs.Formula.Grammar
import MonteCarloSheet.Proofs.Formula.Lockstep
import MonteCarloSheet.Proofs.Formula.Outcome
import MonteCarloSheet.Proofs.Formula.Parsing
import MonteCarloSheet.Proofs.Formula.Reading
import MonteCarloSheet.Random.Allowance
import MonteCarloSheet.Random.Checksum
import MonteCarloSheet.Random.Congruential
import MonteCarloSheet.Random.Engine
import MonteCarloSheet.Random.Generator
import MonteCarloSheet.Random.Limbs
import MonteCarloSheet.Random.Machine
import MonteCarloSheet.Random.Permuted
import MonteCarloSheet.Roster
import MonteCarloSheet.Samples.Arithmetic
import MonteCarloSheet.Samples.Distribution
import MonteCarloSheet.Samples.Histogram
import MonteCarloSheet.Samples.Statistics
import MonteCarloSheet.Settings
import MonteCarloSheet.Sheet.Cell
import MonteCarloSheet.Sheet.Kind
import MonteCarloSheet.Sheet.Links
import MonteCarloSheet.Sheet.Order
import MonteCarloSheet.Sheet.Recalculation
import MonteCarloSheet.Sheet.Reevaluation
import MonteCarloSheet.Text.Blank
import MonteCarloSheet.Text.Digit
import MonteCarloSheet.Text.Printable
import MonteCarloSheet.Text.Quoted
import MonteCarloSheet.Workbook
import MonteCarloSheet.Proofs.Sheet.Steps
import MonteCarloSheet.Proofs.Sheet.Order
import MonteCarloSheet.Proofs.Sheet.Reachable
import MonteCarloSheet.Proofs.Sheet.Tied
import MonteCarloSheet.Proofs.Sheet.Current
import MonteCarloSheet.Proofs.Sheet.Meaning
import MonteCarloSheet.Proofs.Sheet.Shown
import MonteCarloSheet.Proofs.Sheet.Nesting
import MonteCarloSheet.Proofs.Sheet.Soundness
import MonteCarloSheet.Proofs.Sheet.AtRest
import MonteCarloSheet.Proofs.Sheet.Calm
import MonteCarloSheet.Proofs.Sheet.Holding
import MonteCarloSheet.Proofs.Sheet.Settling
import MonteCarloSheet.Proofs.Sheet.Moves
import MonteCarloSheet.Proofs.Sheet.Leaning
import MonteCarloSheet.Proofs.Sheet.Noticed
import MonteCarloSheet.Proofs.Sheet.Descent
import MonteCarloSheet.Proofs.Sheet.Descending
import MonteCarloSheet.Proofs.Sheet.Unnested
import MonteCarloSheet.Proofs.Sheet.Rounds
import MonteCarloSheet.Proofs.Sheet.Exact
import MonteCarloSheet.Proofs.Sheet.Coherent
import MonteCarloSheet.Proofs.Sheet.Converged
import MonteCarloSheet.Proofs.Sheet.Resting
import MonteCarloSheet.Proofs.Sheet.Rewriting
import MonteCarloSheet.Proofs.Sheet.Convergence
import MonteCarloSheet.Proofs.Sheet.Regular
import MonteCarloSheet.Proofs.Sheet.Lives
import MonteCarloSheet.Proofs.Sheet.Representation
import MonteCarloSheet.Proofs.Sheet.Frozen
import MonteCarloSheet.Proofs.Sheet.Announced
import MonteCarloSheet.Proofs.Number
import MonteCarloSheet.Proofs.Formula.Asking
import MonteCarloSheet.Proofs.Sheet.Firm
import MonteCarloSheet.Proofs.Sheet.Accurate
import MonteCarloSheet.Proofs.Sheet.ByHand
import MonteCarloSheet.Proofs.Sheet.Arrangement
import MonteCarloSheet.Proofs.Sheet.Nest
import MonteCarloSheet.Proofs.Formula.Naming
import MonteCarloSheet.Proofs.Sheet.Depth
import MonteCarloSheet.Proofs.Problem
import MonteCarloSheet.Proofs.Sheet.Accounted
import MonteCarloSheet.Proofs.Sheet.Grounded
import MonteCarloSheet.Proofs.Sheet.Causes
import MonteCarloSheet.Proofs.Sheet.Locality
import MonteCarloSheet.Proofs.Sheet.Frame
import MonteCarloSheet.Proofs.Sheet.Samplewise
import MonteCarloSheet.Proofs.Formula.Samplewise
import MonteCarloSheet.Proofs.Formula.Scanning
import MonteCarloSheet.Proofs.Formula.Lookahead
import MonteCarloSheet.Proofs.Formula.Completion
import MonteCarloSheet.Proofs.Formula.Lexing
import MonteCarloSheet.Proofs.Formula.Earliest
import MonteCarloSheet.Proofs.Formula.Mentions
import MonteCarloSheet.Proofs.Samples.Histogram
import MonteCarloSheet.Proofs.Formula.Spelling
import MonteCarloSheet.Proofs.Formula.Tokens
import MonteCarloSheet.Proofs.Sheet.Remembered
import MonteCarloSheet.Proofs.Formula.Undrawn
import MonteCarloSheet.Proofs.Samples.Drawn
import MonteCarloSheet.Proofs.Formula.Declared
import MonteCarloSheet.Proofs.Formula.Symmetric
import MonteCarloSheet.Proofs.Workbook.Drained
import MonteCarloSheet.Proofs.Workbook.Session
import MonteCarloSheet.Proofs.Workbook.SampleCount
import MonteCarloSheet.Proofs.Roster
import MonteCarloSheet.Proofs.CommandLine.Definition
import MonteCarloSheet.Proofs.CommandLine.Options
import MonteCarloSheet.Proofs.CommandLine.Input
import MonteCarloSheet.Proofs.Sheet.Description
import MonteCarloSheet.Proofs.Sheet.Afresh
import MonteCarloSheet.Proofs.CommandLine.Report
