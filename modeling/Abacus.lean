import Abacus.Bindings
import Abacus.Builtin.Body
import Abacus.Builtin.Registry
import Abacus.Command
import Abacus.Error
import Abacus.Eval.Evaluate
import Abacus.Eval.Machine
import Abacus.Eval.Operator
import Abacus.Eval.Resolve
import Abacus.Eval.Step
import Abacus.Json
import Abacus.Main
import Abacus.Number.Binary
import Abacus.Number.Decimal
import Abacus.Number.Read
import Abacus.Number.Style
import Abacus.Parse.Expression
import Abacus.Parse.Program
import Abacus.Parse.State
import Abacus.Prompt
import Abacus.Proofs.Prompt.Continuation
import Abacus.Proofs.Prompt.Lines
import Abacus.Proofs.Prompt.Transcript
import Abacus.Proofs.Eval.Law
import Abacus.Proofs.Eval.Scopes
import Abacus.Proofs.Parse.Abreast
import Abacus.Proofs.Parse.Joined
import Abacus.Proofs.Parse.Braces
import Abacus.Proofs.Parse.Placed
import Abacus.Proofs.Parse.Complete
import Abacus.Proofs.Parse.Coupling
import Abacus.Proofs.Parse.Earliest
import Abacus.Proofs.Parse.Faults
import Abacus.Proofs.Parse.Grammar
import Abacus.Proofs.Parse.Literal
import Abacus.Proofs.Parse.Lookahead
import Abacus.Proofs.Parse.Meets
import Abacus.Proofs.Parse.Nesting
import Abacus.Proofs.Parse.Operands
import Abacus.Proofs.Parse.Primitive
import Abacus.Proofs.Parse.Reads
import Abacus.Proofs.Parse.Rendering
import Abacus.Proofs.Parse.RoundTrip
import Abacus.Proofs.Parse.Sentences
import Abacus.Proofs.Parse.Sound
import Abacus.Proofs.Parse.Source
import Abacus.Proofs.Parse.Tower
import Abacus.Proofs.Stateful
import Abacus.Proofs.Tree.Height
import Abacus.Proofs.Tree.Relocate
import Abacus.Proofs.Value.Alike
import Abacus.Scope
import Abacus.Session
import Abacus.Sink
import Abacus.Source.Position
import Abacus.Text.Ascii
import Abacus.Text.Blank
import Abacus.Text.Extender
import Abacus.Text.Printable
import Abacus.Text.Quoted
import Abacus.Token.Balance
import Abacus.Token.Basic
import Abacus.Token.Display
import Abacus.Token.Scan
import Abacus.Tree.Basic
import Abacus.Tree.Form
import Abacus.Value.Basic
import Abacus.Value.Text
import Abacus.Proofs.Eval.Lockstep
import Abacus.Proofs.Eval.Mirror
import Abacus.Proofs.Eval.Fuel
import Abacus.Proofs.Session.Step
import Abacus.Proofs.Session.Limit
import Abacus.Proofs.Eval.Counters
import Abacus.Proofs.Session.Budget
import Abacus.Proofs.Session.Return
import Abacus.Proofs.Eval.Renaming
import Abacus.Proofs.Eval.Coherence
import Abacus.Proofs.Session.Loop
import Abacus.Proofs.Token.Spelling
import Abacus.Proofs.Token.Scanned
import Abacus.Proofs.Token.Extent
import Abacus.Proofs.Value.LoopFree
import Abacus.Proofs.Eval.Halting
import Abacus.Proofs.Session.Termination
import Abacus.Proofs.Token.Balance
import Abacus.Proofs.Token.Joined
import Abacus.Proofs.Token.Longest
import Abacus.Proofs.Token.Pattern
import Abacus.Proofs.Token.Spacing
import Abacus.Proofs.Parse.Unplaced
import Abacus.Proofs.Parse.Viable
import Abacus.Proofs.Parse.Indexed
import Abacus.Proofs.Parse.InBounds
import Abacus.Proofs.Parse.Total
import Abacus.Proofs.Eval.Recoding
import Abacus.Proofs.Eval.Placed
import Abacus.Proofs.Eval.Unplaced
import Abacus.Proofs.Session.Layout
import Abacus.Proofs.Session.Joined
import Abacus.Proofs.Eval.Stops
import Abacus.Proofs.Session.Failure
import Abacus.Proofs.Session.Cause
import Abacus.Proofs.Eval.Visit
import Abacus.Proofs.Eval.Compose
import Abacus.Proofs.Eval.Output
import Abacus.Proofs.Session.Cut
import Abacus.Proofs.Session.Repeat
import Abacus.Proofs.Session.Passes
import Abacus.Proofs.Session.Items
import Abacus.Proofs.Session.Fold
import Abacus.Proofs.Eval.Vocabulary
import Abacus.Proofs.Eval.Confined
import Abacus.Proofs.Session.Unmentioned
import Abacus.Proofs.Tree.Layers
import Abacus.Proofs.Value.Closures
import Abacus.Proofs.Eval.Forest
import Abacus.Proofs.Eval.Keeps
import Abacus.Proofs.Eval.Bounded
import Abacus.Proofs.Session.History
import Abacus.Proofs.Session.Depth
import Abacus.Proofs.Session.Scopes
import Abacus.Proofs.Text.Quoted
import Abacus.Proofs.Number.Positional
import Abacus.Proofs.Number.Rounding
import Abacus.Proofs.Number.Shortest
import Abacus.Proofs.Number.Bits
import Abacus.Proofs.Number.Display
import Abacus.Proofs.Tree.Outline
import Abacus.Proofs.Tree.Form
import Abacus.Proofs.Tree.Readable
import Abacus.Proofs.Parse.Printed
import Abacus.Proofs.Token.Quotation
import Abacus.Proofs.Eval.Naming
import Abacus.Proofs.Parse.Charted
import Abacus.Proofs.Parse.Course
import Abacus.Proofs.Parse.Balanced
import Abacus.Proofs.Number.RoundTrip
import Abacus.Proofs.Scope.Ascending
import Abacus.Proofs.Scope.Replay
import Abacus.Proofs.Parse.Symbols
import Abacus.Proofs.Parse.Summit
