import WasmInspect.Agreement
import WasmInspect.Bytes
import WasmInspect.Cli
import WasmInspect.Cli.Arguments
import WasmInspect.Cli.Folder
import WasmInspect.Cli.Listen
import WasmInspect.Cli.Log
import WasmInspect.Cli.Url
import WasmInspect.Cursor
import WasmInspect.Decimal.FloatText
import WasmInspect.Decimal.Shortest
import WasmInspect.Encode
import WasmInspect.Engine
import WasmInspect.Error
import WasmInspect.Event
import WasmInspect.Grammar.Code
import WasmInspect.Grammar.Entry
import WasmInspect.Grammar.Number
import WasmInspect.Grammar.Section
import WasmInspect.Grammar.Tag
import WasmInspect.Instruction
import WasmInspect.Instruction.Text
import WasmInspect.Leb128
import WasmInspect.Leb128.Encode
import WasmInspect.Main
import WasmInspect.Model
import WasmInspect.Module
import WasmInspect.Opcode
import WasmInspect.Production
import WasmInspect.Proofs.Agreement
import WasmInspect.Proofs.Body
import WasmInspect.Proofs.Comparison
import WasmInspect.Proofs.Counts
import WasmInspect.Proofs.Culprit
import WasmInspect.Proofs.Encode
import WasmInspect.Proofs.Faults
import WasmInspect.Proofs.Grammar.Failure
import WasmInspect.Proofs.Grammar.Moves
import WasmInspect.Proofs.Grammar.Reads
import WasmInspect.Proofs.Grammar.Reports
import WasmInspect.Proofs.Grammar.Success
import WasmInspect.Proofs.Grammar.Takes
import WasmInspect.Proofs.Grammar.Yields
import WasmInspect.Proofs.Highlight
import WasmInspect.Proofs.IndexSpace
import WasmInspect.Proofs.InstructionText
import WasmInspect.Proofs.Layout
import WasmInspect.Proofs.Leb128
import WasmInspect.Proofs.Leb128.Padding
import WasmInspect.Proofs.Leb128.Reading
import WasmInspect.Proofs.Leb128.Words
import WasmInspect.Proofs.Locality
import WasmInspect.Proofs.Mismatches
import WasmInspect.Proofs.Nesting
import WasmInspect.Proofs.Outcome
import WasmInspect.Proofs.Parts
import WasmInspect.Proofs.Progress
import WasmInspect.Proofs.Readability
import WasmInspect.Proofs.Reader.Failure
import WasmInspect.Proofs.Reader.Moves
import WasmInspect.Proofs.Reader.Reads
import WasmInspect.Proofs.Reader.Reports
import WasmInspect.Proofs.Reader.Success
import WasmInspect.Proofs.Reader.Takes
import WasmInspect.Proofs.RoundTrip
import WasmInspect.Proofs.Stream
import WasmInspect.Proofs.Trace
import WasmInspect.Proofs.TwoViews
import WasmInspect.Proofs.UnknownSections
import WasmInspect.Proofs.Utf8
import WasmInspect.Proofs.Views
import WasmInspect.Proofs.WellFormed
import WasmInspect.Proofs.WellNested
import WasmInspect.Proofs.Wire
import WasmInspect.Reader
import WasmInspect.Record
import WasmInspect.SExpr
import WasmInspect.Text.Number
import WasmInspect.Types
import WasmInspect.Wire
import WasmInspect.Wire.Read
