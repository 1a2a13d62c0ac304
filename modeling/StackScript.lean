import StackScript.ArrayStore
import StackScript.CommandLine
import StackScript.Config
import StackScript.Disk
import StackScript.Error
import StackScript.Format.Conversion
import StackScript.Format.Float
import StackScript.Format.Integer
import StackScript.Format.Spec
import StackScript.Format.Template
import StackScript.Host
import StackScript.Machine.Basic
import StackScript.Machine.Named
import StackScript.Machine.Step
import StackScript.Main
import StackScript.NameMap
import StackScript.Number.Decimal
import StackScript.Number.Exact
import StackScript.Number.Rounding
import StackScript.Numeral
import StackScript.Opcode
import StackScript.Operation
import StackScript.Options
import StackScript.Options.Document
import StackScript.Proofs.ArrayStore
import StackScript.Proofs.ArrayStore.History
import StackScript.Proofs.ArrayStore.Positions
import StackScript.Proofs.Config.Clean
import StackScript.Proofs.Config.Contained
import StackScript.Proofs.Config.Folded
import StackScript.Proofs.Config.Lines
import StackScript.Proofs.Config.Overlay
import StackScript.Proofs.Config.Read
import StackScript.Proofs.Config.RoundTrip
import StackScript.Proofs.Config.Tidy
import StackScript.Proofs.Disk
import StackScript.Proofs.Format.Escape
import StackScript.Proofs.Format.General
import StackScript.Proofs.Format.Hex
import StackScript.Proofs.Format.HexWords
import StackScript.Proofs.Format.Integer
import StackScript.Proofs.Format.Pieces
import StackScript.Proofs.Format.Point
import StackScript.Proofs.Format.ReadBack
import StackScript.Proofs.Format.Secrecy
import StackScript.Proofs.Format.SpecParts
import StackScript.Proofs.Format.SpecText
import StackScript.Proofs.Host.Called
import StackScript.Proofs.Host.Interning
import StackScript.Proofs.Host.Sections
import StackScript.Proofs.Host.Session
import StackScript.Proofs.Host.Stopped
import StackScript.Proofs.Machine.Byte
import StackScript.Proofs.Machine.CallOrder
import StackScript.Proofs.Machine.Changes
import StackScript.Proofs.Machine.Effect
import StackScript.Proofs.Machine.Fault
import StackScript.Proofs.Machine.Frame
import StackScript.Proofs.Machine.Handles
import StackScript.Proofs.Machine.Iteration
import StackScript.Proofs.Machine.Meaning
import StackScript.Proofs.Machine.Preserve
import StackScript.Proofs.Machine.Quotient
import StackScript.Proofs.Machine.Refusal
import StackScript.Proofs.Machine.Search
import StackScript.Proofs.Machine.Signature
import StackScript.Proofs.Machine.Truncation
import StackScript.Proofs.NameMap
import StackScript.Proofs.Number.Decimal
import StackScript.Proofs.Number.Double
import StackScript.Proofs.Number.Nearest
import StackScript.Proofs.Number.Rounding
import StackScript.Proofs.Number.Word
import StackScript.Proofs.Numeral
import StackScript.Proofs.Numeral.Digits
import StackScript.Proofs.Numeral.Leading
import StackScript.Proofs.Script.Concat
import StackScript.Proofs.Script.Halt
import StackScript.Proofs.Script.Handles
import StackScript.Proofs.Script.Hex
import StackScript.Proofs.Script.Quoted
import StackScript.Proofs.Script.RoundTrip
import StackScript.Proofs.Script.Words
import StackScript.Proofs.Setting.Access
import StackScript.Proofs.Setting.Failure
import StackScript.Proofs.Setting.Frame
import StackScript.Proofs.Setting.Lines
import StackScript.Proofs.Setting.ReadBack
import StackScript.Proofs.Single.Grammar
import StackScript.Proofs.Single.Narrow
import StackScript.Proofs.Single.Scan
import StackScript.Proofs.Text.Boundary
import StackScript.Proofs.Text.Bytes
import StackScript.Proofs.Text.CodePage
import StackScript.Proofs.Text.Cut
import StackScript.Proofs.Text.Decode
import StackScript.Proofs.Text.Find
import StackScript.Proofs.Text.Lines
import StackScript.Proofs.Text.Slice
import StackScript.Proofs.Text.Trim
import StackScript.Script.Parse
import StackScript.Script.Run
import StackScript.Script.Token
import StackScript.Setting.Store
import StackScript.Setting.Triplet
import StackScript.Single.Arithmetic
import StackScript.Single.Basic
import StackScript.Single.Reader
import StackScript.Text.Blank
import StackScript.Text.Case
import StackScript.Text.CodePage
import StackScript.Text.Line
import StackScript.Text.Slice
import StackScript.Text.Split
import StackScript.Text.Utf8
import StackScript.Value
