import ExprLang.Command
import ExprLang.Command.RunOptions
import ExprLang.Expr
import ExprLang.Expr.OnDemand
import ExprLang.Expr.ParseError
import ExprLang.Expr.Parser
import ExprLang.Expr.Printer
import ExprLang.Expr.Rules
import ExprLang.Machine
import ExprLang.Main
import ExprLang.Number.Binary64
import ExprLang.Number.Fibonacci
import ExprLang.Number.Literal
import ExprLang.Number.Numeral
import ExprLang.Number.Power
import ExprLang.Number.Remainder
import ExprLang.Number.Shortest
import ExprLang.Operator
import ExprLang.Position
import ExprLang.Proofs.Command.RunOptions
import ExprLang.Proofs.Expr.Canonical
import ExprLang.Proofs.Expr.Completeness
import ExprLang.Proofs.Expr.Completion
import ExprLang.Proofs.Expr.Grammar
import ExprLang.Proofs.Expr.Idempotence
import ExprLang.Proofs.Expr.Incomplete
import ExprLang.Proofs.Expr.Layout
import ExprLang.Proofs.Expr.Located
import ExprLang.Proofs.Expr.Lockstep
import ExprLang.Proofs.Expr.Maximal
import ExprLang.Proofs.Expr.OnDemand
import ExprLang.Proofs.Expr.Places
import ExprLang.Proofs.Expr.Precedence
import ExprLang.Proofs.Expr.Reads
import ExprLang.Proofs.Expr.Refusal
import ExprLang.Proofs.Expr.Respelling
import ExprLang.Proofs.Expr.RoundTrip
import ExprLang.Proofs.Expr.Rules
import ExprLang.Proofs.Expr.Simulation
import ExprLang.Proofs.Expr.Size
import ExprLang.Proofs.Expr.Soundness
import ExprLang.Proofs.Expr.Strict
import ExprLang.Proofs.Expr.Sugar
import ExprLang.Proofs.Expr.Tree
import ExprLang.Proofs.Machine.Calls
import ExprLang.Proofs.Machine.Custody
import ExprLang.Proofs.Machine.Discipline
import ExprLang.Proofs.Machine.Encapsulation
import ExprLang.Proofs.Machine.Erase
import ExprLang.Proofs.Machine.Formatting
import ExprLang.Proofs.Machine.Handover
import ExprLang.Proofs.Machine.Identity
import ExprLang.Proofs.Machine.Interpreted
import ExprLang.Proofs.Machine.Limit
import ExprLang.Proofs.Machine.Moves
import ExprLang.Proofs.Machine.Nodes
import ExprLang.Proofs.Machine.Output
import ExprLang.Proofs.Machine.Reachable
import ExprLang.Proofs.Machine.Receivers
import ExprLang.Proofs.Machine.Results
import ExprLang.Proofs.Machine.Scoping
import ExprLang.Proofs.Machine.Stacked
import ExprLang.Proofs.Machine.Termination
import ExprLang.Proofs.Machine.Timed
import ExprLang.Proofs.Number.Bits
import ExprLang.Proofs.Number.Fibonacci
import ExprLang.Proofs.Number.Nearest
import ExprLang.Proofs.Number.ReadBack
import ExprLang.Proofs.Store.Frames
import ExprLang.Proofs.Store.Lookup
import ExprLang.Proofs.Token.Continuation
import ExprLang.Proofs.Token.Counting
import ExprLang.Proofs.Token.Literal
import ExprLang.Proofs.Token.Lookahead
import ExprLang.Proofs.Token.Segmentation
import ExprLang.Proofs.Token.Spelling
import ExprLang.Proofs.Value.Equality
import ExprLang.Proofs.Value.Equivalence
import ExprLang.Proofs.Value.Erase
import ExprLang.Proofs.Value.Outcome
import ExprLang.Session
import ExprLang.Store
import ExprLang.Text.Quoted
import ExprLang.Text.Unprintable
import ExprLang.Token
import ExprLang.Token.Cursor
import ExprLang.Token.Lexeme
import ExprLang.Token.Lexer
import ExprLang.Token.Stream
import ExprLang.Value
import ExprLang.Value.Display
import ExprLang.Value.Fault
import ExprLang.Value.Method
import ExprLang.Value.Operate
