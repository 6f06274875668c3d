import Lisp.Arity
import Lisp.Builtin
import Lisp.CommandLine
import Lisp.Commands
import Lisp.Eval.Basic
import Lisp.Eval.Body
import Lisp.Eval.Builtin.Core
import Lisp.Eval.Builtin.Number
import Lisp.Eval.Builtin.Sequence
import Lisp.Eval.Builtin.System
import Lisp.Eval.Construct
import Lisp.Eval.Conversion
import Lisp.Eval.Equality
import Lisp.Eval.Machine
import Lisp.Eval.Pattern
import Lisp.Eval.Sequence
import Lisp.Eval.Special
import Lisp.Eval.Template
import Lisp.Failure
import Lisp.Failure.Wording
import Lisp.Files
import Lisp.Heap
import Lisp.Interpreter
import Lisp.Main
import Lisp.Number.Binary64
import Lisp.Number.Decimal
import Lisp.Options
import Lisp.Prelude
import Lisp.Proofs.Balance
import Lisp.Proofs.Congruence
import Lisp.Proofs.Congruence.Builtins
import Lisp.Proofs.Congruence.Forms
import Lisp.Proofs.Congruence.Run
import Lisp.Proofs.Congruence.Values
import Lisp.Proofs.Frames
import Lisp.Proofs.Number.Decimals
import Lisp.Proofs.Number.Nearest
import Lisp.Proofs.Number.Numerals
import Lisp.Proofs.Number.Patterns
import Lisp.Proofs.Reader.Complaints
import Lisp.Proofs.Reader.Readable
import Lisp.Proofs.Reader.RoundTrip
import Lisp.Proofs.Reader.Tokens
import Lisp.Proofs.Recur
import Lisp.Proofs.Session
import Lisp.Proofs.Text.Quoting
import Lisp.Reader
import Lisp.Source.Cursor
import Lisp.Source.Span
import Lisp.Symbol
import Lisp.Text.Bytes
import Lisp.Text.CharClass
import Lisp.Text.Escaped
import Lisp.Text.Quoted
import Lisp.Value
import Lisp.Value.Equality
import Lisp.Value.Hash
import Lisp.Value.Printer
import Lisp.Proofs.Equality.Declared
import Lisp.Proofs.Equality.Lookup
import Lisp.Proofs.Equality.Comparison
import Lisp.Proofs.Equality.Laws
import Lisp.Proofs.Equality.Hashes
import Lisp.Proofs.Scope.Reach
import Lisp.Proofs.Scope.Tables
import Lisp.Proofs.Scope.Evaluations
import Lisp.Proofs.Scope.Values
import Lisp.Proofs.Scope.Builtins
import Lisp.Proofs.Scope.Forms
import Lisp.Proofs.Scope.Run
import Lisp.Proofs.Fuel
import Lisp.Proofs.Scope.Programs
import Lisp.Proofs.Overrides
import Lisp.Proofs.TailCall.Marked
import Lisp.Proofs.TailCall.Quiet
import Lisp.Proofs.TailCall
import Lisp.Proofs.Reader.Continuation
import Lisp.Proofs.Consultation
import Lisp.Proofs.Growth
import Lisp.Proofs.Expansions
import Lisp.Proofs.Modes
import Lisp.Proofs.Equality.Proper
import Lisp.Proofs.Reader.Reread
import Lisp.Proofs.Alarm
import Lisp.Proofs.Limit
import Lisp.Proofs.Equality.Undeclared
import Lisp.Proofs.Instance
import Lisp.Proofs.Reader.Cut
import Lisp.Proofs.Reader.Spans
import Lisp.Proofs.Memory
import Lisp.Proofs.Congruence.Straight
import Lisp.Proofs.Construction
import Lisp.Proofs.Templates
import Lisp.Proofs.Mismatches
import Lisp.Proofs.Reports
import Lisp.Proofs.Uninvolved
import Lisp.Proofs.Patterns
import Lisp.Proofs.Reader.InStep
import Lisp.Proofs.Reader.Concatenation
import Lisp.Proofs.Diagnostics
import Lisp.Proofs.Control.Meaning
import Lisp.Proofs.Control.Expansion
import Lisp.Proofs.Control.Invariants
import Lisp.Proofs.Control.Rounds
import Lisp.Proofs.Reader.Layout
import Lisp.Proofs.Reader.DotSugar
import Lisp.Proofs.Source.Lines
import Lisp.Proofs.Source.Locations
import Lisp.Proofs.Source.Snippets
import Lisp.Proofs.Text.Literals
import Lisp.Proofs.Bindings
import Lisp.Proofs.Colors
import Lisp.Proofs.Operands
import Lisp.Proofs.Reader.Progress
