import ScopedScript.CommandLine
import ScopedScript.Diagnostic
import ScopedScript.Environment
import ScopedScript.Evaluate
import ScopedScript.Heap
import ScopedScript.Machine
import ScopedScript.Main
import ScopedScript.NameMap
import ScopedScript.Number.Read
import ScopedScript.Number.Shortest
import ScopedScript.Number.Text
import ScopedScript.Program
import ScopedScript.Prompt
import ScopedScript.Proofs.Grammar
import ScopedScript.Proofs.Grammar.Sound
import ScopedScript.Reporter
import ScopedScript.RuntimeError
import ScopedScript.Scope
import ScopedScript.Session
import ScopedScript.Text.Blank
import ScopedScript.Text.Digit
import ScopedScript.Text.Lines
import ScopedScript.Text.Style
import ScopedScript.Text.Utf8
import ScopedScript.Token
import ScopedScript.Token.Cursor
import ScopedScript.Token.Lexeme
import ScopedScript.Token.Scan
import ScopedScript.Tree
import ScopedScript.Tree.Parse
import ScopedScript.Tree.ParseError
import ScopedScript.Tree.Print
import ScopedScript.Value
import ScopedScript.Proofs.Grammar.Starts
import ScopedScript.Proofs.Grammar.Complete
import ScopedScript.Proofs.Grammar.NearestElse
import ScopedScript.Proofs.Grammar.Recognition
import ScopedScript.Proofs.Grammar.Parser
import ScopedScript.Proofs.Grammar.Position
import ScopedScript.Proofs.Operators
import ScopedScript.Proofs.Plan
import ScopedScript.Proofs.Restore
import ScopedScript.Proofs.Log
import ScopedScript.Proofs.Moments
import ScopedScript.Proofs.Grammar.WellFormed
import ScopedScript.Proofs.Scan.Kinds
import ScopedScript.Proofs.Scope.Located
import ScopedScript.Proofs.Scope.Frames
import ScopedScript.Proofs.Scope.Agreement
import ScopedScript.Proofs.Scope.Resolution
import ScopedScript.Proofs.Scope.Defects
import ScopedScript.Proofs.Return
import ScopedScript.Proofs.Load
import ScopedScript.Proofs.Scope.Context
import ScopedScript.Proofs.Scope.Code
import ScopedScript.Proofs.Policy
import ScopedScript.Proofs.Policy.Evaluation
import ScopedScript.Proofs.Calls
import ScopedScript.Proofs.Encapsulation
import ScopedScript.Proofs.Relabel
import ScopedScript.Proofs.Relabel.Evaluation
import ScopedScript.Proofs.Relabel.Analysis
import ScopedScript.Proofs.Relabel.Grammar
import ScopedScript.Proofs.Scan.Append
import ScopedScript.Proofs.Concatenation
import ScopedScript.Proofs.Relabel.Labels
import ScopedScript.Proofs.Distances.Numbering
import ScopedScript.Proofs.Distances.Resolver
import ScopedScript.Proofs.Distances.Interpreter
import ScopedScript.Proofs.Rejection
import ScopedScript.Proofs.History
import ScopedScript.Proofs.History.Makers
import ScopedScript.Proofs.Construction
import ScopedScript.Proofs.Scope.Enclosed
import ScopedScript.Proofs.History.Entered
import ScopedScript.Proofs.Receiver
import ScopedScript.Proofs.Output
import ScopedScript.Proofs.Showing
import ScopedScript.Proofs.Distances.Showing
import ScopedScript.Proofs.Grammar.Following
import ScopedScript.Proofs.Scan.Numerals
import ScopedScript.Proofs.Scan.Characters
import ScopedScript.Proofs.Forest
import ScopedScript.Proofs.FrontEnd
import ScopedScript.Proofs.Grammar.Stops
import ScopedScript.Proofs.Scope.Legal
import ScopedScript.Proofs.Grammar.Boundaries
import ScopedScript.Proofs.Grammar.Recovery
import ScopedScript.Proofs.Blame
import ScopedScript.Proofs.ReadTrees
import ScopedScript.Proofs.Scan.Lexical
import ScopedScript.Proofs.Scan.Steps
import ScopedScript.Proofs.Scan.Munch
import ScopedScript.Proofs.Scan.Respacing
import ScopedScript.Proofs.Scan.Places
import ScopedScript.Proofs.SourceLines
import ScopedScript.Proofs.Scope.KeptCode
import ScopedScript.Proofs.Pointing
import ScopedScript.Proofs.Scope.Accused
import ScopedScript.Proofs.ErrorPlaces
import ScopedScript.Proofs.ForLoop.Widen
import ScopedScript.Proofs.ForLoop.Layout
import ScopedScript.Proofs.ForLoop.Mirror
import ScopedScript.Proofs.ForLoop.Scopes
import ScopedScript.Proofs.ForLoop.Direct
import ScopedScript.Proofs.ForLoop.Resolve
import ScopedScript.Proofs.ForLoop.Grounded
import ScopedScript.Proofs.ForLoop.Meaning
import ScopedScript.Proofs.Equality
import ScopedScript.Proofs.RunValue
import ScopedScript.Proofs.Grammar.Forms
import ScopedScript.Proofs.Grammar.Follows
import ScopedScript.Proofs.Grammar.ReadersFollow
import ScopedScript.Proofs.Grammar.FirstWrongToken
import ScopedScript.Proofs.Number.Shortest
import ScopedScript.Proofs.Number.Text
import ScopedScript.Proofs.Printing.Sexp
import ScopedScript.Proofs.Printing.Shape
import ScopedScript.Proofs.Printing.Unambiguous
