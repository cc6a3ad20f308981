import Tabular.Binary64
import Tabular.Bytes
import Tabular.Decimal.Layout
import Tabular.Decimal.Numeral
import Tabular.Decimal.Shortest
import Tabular.Dialect
import Tabular.Failure
import Tabular.Keyed.Reader
import Tabular.Keyed.Writer
import Tabular.Literal
import Tabular.Order
import Tabular.OrderedMap
import Tabular.Proofs.Binary64
import Tabular.Proofs.Bytes.Literal
import Tabular.Proofs.Bytes.Memo
import Tabular.Proofs.Decimal.Layout
import Tabular.Proofs.Decimal.Numeral
import Tabular.Proofs.Decimal.Rounding
import Tabular.Proofs.Decimal.Shortest
import Tabular.Proofs.Dialect
import Tabular.Proofs.Failure
import Tabular.Proofs.Keyed.Reader
import Tabular.Proofs.Keyed.Writer
import Tabular.Proofs.Lines
import Tabular.Proofs.Literal
import Tabular.Proofs.Order
import Tabular.Proofs.Order.Scalars
import Tabular.Proofs.Reader.Contents
import Tabular.Proofs.Reader.Ending
import Tabular.Proofs.Reader.Field
import Tabular.Proofs.Reader.Grammar
import Tabular.Proofs.Reader.Grammar.Lines
import Tabular.Proofs.Reader.Invariants
import Tabular.Proofs.Reader.Lenient
import Tabular.Proofs.Reader.Limit
import Tabular.Proofs.Reader.Machine
import Tabular.Proofs.Reader.Numbers
import Tabular.Proofs.Reader.Progress
import Tabular.Proofs.Reader.Reads
import Tabular.Proofs.Reader.Requests
import Tabular.Proofs.Reader.Restart
import Tabular.Proofs.Reader.Terminator
import Tabular.Proofs.Registry
import Tabular.Proofs.RoundTrip
import Tabular.Proofs.RoundTrip.Blanks
import Tabular.Proofs.RoundTrip.Breaks
import Tabular.Proofs.RoundTrip.Cell
import Tabular.Proofs.RoundTrip.Keyed
import Tabular.Proofs.RoundTrip.Numeric
import Tabular.Proofs.RoundTrip.Records
import Tabular.Proofs.Sequence.Assignment
import Tabular.Proofs.Sequence.Deletion
import Tabular.Proofs.Sequence.Edits
import Tabular.Proofs.Sequence.Repetition
import Tabular.Proofs.Sequence.Search
import Tabular.Proofs.Sequence.Sort
import Tabular.Proofs.Shape
import Tabular.Proofs.Slice
import Tabular.Proofs.Slice.Addressed
import Tabular.Proofs.Slice.Checked
import Tabular.Proofs.Slice.Positions
import Tabular.Proofs.Slice.Views
import Tabular.Proofs.Text.Quoted
import Tabular.Proofs.Writer
import Tabular.Proofs.Writer.Buffer
import Tabular.Proofs.Writer.Calls
import Tabular.Proofs.Writer.Counters
import Tabular.Proofs.Writer.Refusals
import Tabular.Proofs.Writer.Row
import Tabular.Reader
import Tabular.Reader.Machine
import Tabular.Registry
import Tabular.Sequence
import Tabular.Sequence.Sort
import Tabular.Session
import Tabular.Shape
import Tabular.Slice
import Tabular.Text.Quoted
import Tabular.Writer
import Tabular.Writer.Buffer
import Tabular.Writer.Row
