import Abacus.Binary64
import Abacus.Builtin
import Abacus.CommandLine
import Abacus.Console
import Abacus.Decimal.Digits
import Abacus.Decimal.Shortest
import Abacus.Error
import Abacus.Eval.Application
import Abacus.Eval.Basic
import Abacus.Eval.Operand
import Abacus.Eval.Step
import Abacus.Expr.Basic
import Abacus.Expr.Rendering
import Abacus.Expr.Text
import Abacus.Grammar.Registry
import Abacus.Grammar.Rule
import Abacus.Grammar.Standard
import Abacus.Lexeme
import Abacus.Lexicon
import Abacus.Main
import Abacus.Number.Arithmetic
import Abacus.Number.Basic
import Abacus.Number.Power
import Abacus.Number.Text
import Abacus.Parse.Item
import Abacus.Parse.Line
import Abacus.Parse.Parser
import Abacus.Parse.Precedence
import Abacus.Proofs.Eval.Borrowing
import Abacus.Proofs.Eval.Budget
import Abacus.Proofs.Eval.Compound
import Abacus.Proofs.Eval.Condition
import Abacus.Proofs.Eval.Folding
import Abacus.Proofs.Eval.Frame
import Abacus.Proofs.Eval.Inertness
import Abacus.Proofs.Eval.Invariant
import Abacus.Proofs.Eval.Logic
import Abacus.Proofs.Eval.Need
import Abacus.Proofs.Eval.Outcome
import Abacus.Proofs.Eval.Overlooked
import Abacus.Proofs.Eval.Parentheses
import Abacus.Proofs.Eval.Simplification
import Abacus.Proofs.Eval.Simulation
import Abacus.Proofs.Eval.Substitution
import Abacus.Proofs.Eval.Termination
import Abacus.Proofs.Eval.Unmentioned
import Abacus.Proofs.Eval.Vocabulary
import Abacus.Proofs.Expr.Composed
import Abacus.Proofs.Expr.Explicit
import Abacus.Proofs.Expr.Faithful
import Abacus.Proofs.Expr.Layout
import Abacus.Proofs.Expr.Pairs
import Abacus.Proofs.Expr.Regrouped
import Abacus.Proofs.Expr.Signs
import Abacus.Proofs.Expr.Spelled
import Abacus.Proofs.Grammar.Index
import Abacus.Proofs.Grammar.Registration
import Abacus.Proofs.Number.Comparison
import Abacus.Proofs.Number.Conversion
import Abacus.Proofs.Number.FloatOrder
import Abacus.Proofs.Number.Powers
import Abacus.Proofs.Number.Rational
import Abacus.Proofs.Number.Roots
import Abacus.Proofs.Number.Rounding
import Abacus.Proofs.Parse.Accounting
import Abacus.Proofs.Parse.Arena
import Abacus.Proofs.Parse.Chain
import Abacus.Proofs.Parse.Checked
import Abacus.Proofs.Parse.Commitment
import Abacus.Proofs.Parse.Compact
import Abacus.Proofs.Parse.Creation
import Abacus.Proofs.Parse.Cutting
import Abacus.Proofs.Parse.Fallible
import Abacus.Proofs.Parse.Gathering
import Abacus.Proofs.Parse.Grouped
import Abacus.Proofs.Parse.Grouping
import Abacus.Proofs.Parse.Insertions
import Abacus.Proofs.Parse.Mention
import Abacus.Proofs.Parse.Mentioned
import Abacus.Proofs.Parse.Numeral
import Abacus.Proofs.Parse.Operand
import Abacus.Proofs.Parse.Reading
import Abacus.Proofs.Parse.Refusal
import Abacus.Proofs.Parse.Rereading
import Abacus.Proofs.Parse.Respacing
import Abacus.Proofs.Parse.Roles
import Abacus.Proofs.Parse.Separation
import Abacus.Proofs.Parse.Shape
import Abacus.Proofs.Parse.Shaping
import Abacus.Proofs.Parse.Spelling
import Abacus.Proofs.Parse.Squeezing
import Abacus.Proofs.Parse.Written
import Abacus.Proofs.Script.Runs
import Abacus.Proofs.Session.Calls
import Abacus.Proofs.Session.Commands
import Abacus.Proofs.Session.Continuing
import Abacus.Proofs.Session.Display
import Abacus.Proofs.Session.Learning
import Abacus.Proofs.Session.Numbering
import Abacus.Proofs.Session.Orderly
import Abacus.Proofs.Session.Printing
import Abacus.Proofs.Session.Protected
import Abacus.Proofs.Session.Redefinition
import Abacus.Proofs.Session.Retyped
import Abacus.Proofs.Session.Transparency
import Abacus.Proofs.Table
import Abacus.Proofs.Text.Depth
import Abacus.Proofs.Text.Nested
import Abacus.Proofs.Text.Squeezed
import Abacus.Proofs.Text.Words
import Abacus.Proofs.Tokens.Brackets
import Abacus.Proofs.Tokens.Leading
import Abacus.Proofs.Tokens.Lexicon
import Abacus.Proofs.Tokens.Recognition
import Abacus.Proofs.Tokens.Scan
import Abacus.Proofs.Tokens.Spacing
import Abacus.Proofs.Tokens.Squeezing
import Abacus.Proofs.Tokens.Stability
import Abacus.Proofs.Tokens.Steps
import Abacus.Proofs.Tokens.Trie
import Abacus.Proofs.Tokens.Turns
import Abacus.Script
import Abacus.Session.Basic
import Abacus.Session.Command
import Abacus.Session.Run
import Abacus.Store
import Abacus.Table
import Abacus.Text.Blank
import Abacus.Text.Grapheme
import Abacus.Text.GraphemeBreak
import Abacus.Tokenizer
