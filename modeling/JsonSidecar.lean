import JsonSidecar.Captured
import JsonSidecar.Decode.Session
import JsonSidecar.Encode.Session
import JsonSidecar.Error
import JsonSidecar.File.Handle
import JsonSidecar.Proofs.Cursor
import JsonSidecar.Text.Hex
import JsonSidecar.Proofs.Lexer.Number
import JsonSidecar.Proofs.Items
import JsonSidecar.Proofs.Lexer.Quoted
import JsonSidecar.Proofs.Lexer.Skip
import JsonSidecar.Proofs.Decode.Skippable
import JsonSidecar.Proofs.Number.Decimal
import JsonSidecar.Proofs.Number.Scientific
import JsonSidecar.Proofs.Number.FloatText
import JsonSidecar.Proofs.Encode.Written
import JsonSidecar.Proofs.Element
import JsonSidecar.Proofs.Encode.Capacity
import JsonSidecar.Proofs.Lexer.Grammar
import JsonSidecar.Proofs.Decode.Reads
import JsonSidecar.Proofs.Decode.Scalar
import JsonSidecar.Proofs.Decode.Array
import JsonSidecar.Proofs.Restored
import JsonSidecar.Proofs.RoundTrip
import JsonSidecar.Proofs.Decode.Alike
import JsonSidecar.Proofs.Lexer.Embed
import JsonSidecar.Proofs.Decode.LeadingSpace
import JsonSidecar.Proofs.Decode.Deferred
import JsonSidecar.Proofs.Lexer.Onward
import JsonSidecar.Proofs.Decode.Orderly
import JsonSidecar.Proofs.Decode.Session
import JsonSidecar.Proofs.Json.Grammar
import JsonSidecar.Proofs.Encode.Strict
import JsonSidecar.Proofs.File.Source
import JsonSidecar.Proofs.File.Backings
import JsonSidecar.Proofs.File.LifeCycle
import JsonSidecar.Proofs.File.LastSave
import JsonSidecar.Proofs.Decode.Growth
import JsonSidecar.Proofs.Encode.Calls
import JsonSidecar.Proofs.Number.Rendering
import JsonSidecar.Proofs.Literal
import JsonSidecar.Proofs.Number.Layout
import JsonSidecar.Proofs.Number.Nearest
import JsonSidecar.Proofs.Number.Significant
import JsonSidecar.Proofs.Number.Survival
import JsonSidecar.Proofs.Floats
import JsonSidecar.Proofs.Decode.Recognises
import JsonSidecar.Proofs.Decode.DescriptorText
import JsonSidecar.Proofs.Decode.Stored
import JsonSidecar.Proofs.Lexer.Aligned
import JsonSidecar.Proofs.Lexer.Document
import JsonSidecar.Proofs.Decode.Integer
import JsonSidecar.Proofs.Decode.Bound
import JsonSidecar.Proofs.Decode.Layout
import JsonSidecar.Proofs.Decode.Relaid
import JsonSidecar.Proofs.Entries
import JsonSidecar.Proofs.Decode.Members
import JsonSidecar.Proofs.Decode.ObjectTypes
import JsonSidecar.Proofs.Maps
import JsonSidecar.Proofs.Shape
import JsonSidecar.Proofs.Number.Rounding
import JsonSidecar.Proofs.Range
import JsonSidecar.Proofs.File.Atomic
import JsonSidecar.Proofs.Rows
import JsonSidecar.Proofs.Decode.Report
import JsonSidecar.Proofs.Decode.Progress
import JsonSidecar.Proofs.Text.Chars
import JsonSidecar.Proofs.Lexer.Unescape
import JsonSidecar.Proofs.Decode.Strings
import JsonSidecar.Proofs.Text.Visible
import JsonSidecar.Proofs.Decode.Lines
import JsonSidecar.Proofs.Absent
