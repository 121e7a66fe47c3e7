import ExactJson.Document.Reader
import ExactJson.Document.State
import ExactJson.Error
import ExactJson.Host.Basic
import ExactJson.Host.FromJson
import ExactJson.Host.ToJson
import ExactJson.Layout.Basic
import ExactJson.Layout.Sink
import ExactJson.Number.Basic
import ExactJson.Number.Binary
import ExactJson.Number.Decimal
import ExactJson.Number.Integer
import ExactJson.Number.Literal
import ExactJson.Number.Shortest
import ExactJson.Proofs.Document.Depth
import ExactJson.Proofs.Document.Expected
import ExactJson.Proofs.Document.Grammar
import ExactJson.Proofs.Document.Kinds
import ExactJson.Proofs.Document.Machine
import ExactJson.Proofs.Document.Numbers
import ExactJson.Proofs.Document.Obtained
import ExactJson.Proofs.Document.Outline
import ExactJson.Proofs.Document.Passes
import ExactJson.Proofs.Document.Policy
import ExactJson.Proofs.Document.Reached
import ExactJson.Proofs.Document.Reading
import ExactJson.Proofs.Document.Related
import ExactJson.Proofs.Document.Respaced
import ExactJson.Proofs.Document.Resuming
import ExactJson.Proofs.Document.Streaming
import ExactJson.Proofs.Document.Tokens
import ExactJson.Proofs.Document.Trace
import ExactJson.Proofs.Document.Values
import ExactJson.Proofs.Document.WellFormed
import ExactJson.Proofs.Document.Work
import ExactJson.Proofs.Host.Integers
import ExactJson.Proofs.Host.Maps
import ExactJson.Proofs.Host.NonFinite
import ExactJson.Proofs.Host.Reading
import ExactJson.Proofs.Host.RoundTrip
import ExactJson.Proofs.Layout.Copying
import ExactJson.Proofs.Layout.Fidelity
import ExactJson.Proofs.Layout.Filling
import ExactJson.Proofs.Layout.Grammar
import ExactJson.Proofs.Layout.Lines
import ExactJson.Proofs.Layout.RoundTrip
import ExactJson.Proofs.Layout.Spread
import ExactJson.Proofs.Layout.Words
import ExactJson.Proofs.Number.Canonical
import ExactJson.Proofs.Number.Checked
import ExactJson.Proofs.Number.Grammar
import ExactJson.Proofs.Number.Integer
import ExactJson.Proofs.Number.Notation
import ExactJson.Proofs.Number.Reread
import ExactJson.Proofs.Number.Widening
import ExactJson.Proofs.Source.Asking
import ExactJson.Proofs.Source.Calls
import ExactJson.Proofs.Source.Chunks
import ExactJson.Proofs.Source.Memory
import ExactJson.Proofs.Source.Rewinding
import ExactJson.Proofs.Source.Watched
import ExactJson.Proofs.Text.Boundaries
import ExactJson.Proofs.Text.LoneHalves
import ExactJson.Proofs.Text.Position
import ExactJson.Proofs.Text.Quoted
import ExactJson.Proofs.Text.StringGrammar
import ExactJson.Proofs.Token.Begun
import ExactJson.Proofs.Token.Closing
import ExactJson.Proofs.Token.Completeness
import ExactJson.Proofs.Token.Examined
import ExactJson.Proofs.Token.Faults
import ExactJson.Proofs.Token.Grammar
import ExactJson.Proofs.Token.Literals
import ExactJson.Proofs.Token.Numbers
import ExactJson.Proofs.Token.Places
import ExactJson.Proofs.Token.Reads
import ExactJson.Proofs.Token.Related
import ExactJson.Proofs.Token.Relocation
import ExactJson.Proofs.Token.Restart
import ExactJson.Proofs.Token.Soundness
import ExactJson.Proofs.Value.Editing
import ExactJson.Proofs.Value.Equality
import ExactJson.Proofs.Value.History
import ExactJson.Proofs.Value.Items
import ExactJson.Proofs.Value.Objects
import ExactJson.Proofs.Value.OrderedMap
import ExactJson.Proofs.Value.Tree
import ExactJson.Source.Basic
import ExactJson.Source.Chunked
import ExactJson.Source.Memory
import ExactJson.Text.Ascii
import ExactJson.Text.Escape
import ExactJson.Text.Position
import ExactJson.Text.Shapeless
import ExactJson.Text.Shown
import ExactJson.Text.Utf8
import ExactJson.Token.Basic
import ExactJson.Token.Kind
import ExactJson.Token.Lexer
import ExactJson.Token.Stream
import ExactJson.Value.Basic
import ExactJson.Value.Items
import ExactJson.Value.OrderedMap
import ExactJson.Value.Path
