import Scriptlet.Command
import Scriptlet.Main
import Scriptlet.Proofs.Boundary
import Scriptlet.Proofs.Cache
import Scriptlet.Proofs.Caret
import Scriptlet.Proofs.Console
import Scriptlet.Proofs.Depth
import Scriptlet.Proofs.Descent
import Scriptlet.Proofs.Diagnostic
import Scriptlet.Proofs.Digits
import Scriptlet.Proofs.Document
import Scriptlet.Proofs.FileTree
import Scriptlet.Proofs.Formats
import Scriptlet.Proofs.Grammar
import Scriptlet.Proofs.Highlight
import Scriptlet.Proofs.JsonDepth
import Scriptlet.Proofs.JsonIndent
import Scriptlet.Proofs.JsonReader
import Scriptlet.Proofs.JsonScalar
import Scriptlet.Proofs.JsonText
import Scriptlet.Proofs.JsonTree
import Scriptlet.Proofs.Layers
import Scriptlet.Proofs.Layout
import Scriptlet.Proofs.Lexeme
import Scriptlet.Proofs.Limit
import Scriptlet.Proofs.Lines
import Scriptlet.Proofs.Meaning
import Scriptlet.Proofs.Output
import Scriptlet.Proofs.Parse
import Scriptlet.Proofs.Phrase
import Scriptlet.Proofs.Position
import Scriptlet.Proofs.Quoted
import Scriptlet.Proofs.RoundTrip
import Scriptlet.Proofs.RuleOrder
import Scriptlet.Proofs.Rune
import Scriptlet.Proofs.Scan
import Scriptlet.Proofs.Schedule
import Scriptlet.Proofs.Separated
import Scriptlet.Proofs.Settings
import Scriptlet.Proofs.Slice
import Scriptlet.Proofs.SourceFiles
import Scriptlet.Proofs.Spans
import Scriptlet.Proofs.Stream
import Scriptlet.Proofs.Tables
import Scriptlet.Proofs.Utf8
import Scriptlet.Proofs.Viable
import Scriptlet.Proofs.Walk
import Scriptlet.Proofs.Watch
import Scriptlet.Proofs.WellFormed
import Scriptlet.Proofs.Wording
import Scriptlet.Tree.Walk
