import Wordcode.Document.Scanner.Reader
import Wordcode.Opcode.Archive
import Wordcode.Problem.Snippet
import Wordcode.Proofs.Faithful
import Wordcode.Proofs.Machine
import Wordcode.Proofs.RoundTrip
import Wordcode.Toolchain
import Wordcode.Proofs.Agreement
import Wordcode.Proofs.Capacity
import Wordcode.Proofs.Bare
import Wordcode.Proofs.Reflow
import Wordcode.Proofs.Rereading
import Wordcode.Proofs.Pretty
import Wordcode.Proofs.Tags
import Wordcode.Proofs.Printing
import Wordcode.Proofs.Coverage
import Wordcode.Proofs.Positions
import Wordcode.Proofs.Blanking
import Wordcode.Proofs.Rows
import Wordcode.Proofs.SourceMap
import Wordcode.Proofs.Shifts
import Wordcode.Proofs.Independence
import Wordcode.Proofs.Constants
import Wordcode.Proofs.JsonText
import Wordcode.Proofs.Wire
import Wordcode.Proofs.Serialization
import Wordcode.Proofs.Fields
import Wordcode.Proofs.Recovery
import Wordcode.Proofs.Artifact
import Wordcode.Proofs.Grammar
import Wordcode.Proofs.Rendering
import Wordcode.Proofs.Evaluation
import Wordcode.Proofs.Lookup
import Wordcode.Proofs.Values
import Wordcode.Proofs.Naming
import Wordcode.Proofs.Comments
import Wordcode.Proofs.Diagnostics
import Wordcode.Proofs.Pieces
import Wordcode.Proofs.ByteRanges
import Wordcode.Proofs.Cursors
import Wordcode.Proofs.Slots
import Wordcode.Proofs.Advance
