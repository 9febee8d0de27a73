import PageAsm.Text.Blank
import PageAsm.Text.Bytes
import PageAsm.Text.Digits
import PageAsm.Text.Split
import PageAsm.Numeral
import PageAsm.Field
import PageAsm.Register
import PageAsm.Word
import PageAsm.Page
import PageAsm.Operation
import PageAsm.Instruction
import PageAsm.Output
import PageAsm.Line
import PageAsm.Diagnostic
import PageAsm.SourceText
import PageAsm.Table
import PageAsm.Symbol
import PageAsm.Tables
import PageAsm.Layout
import PageAsm.Record
import PageAsm.Listing
import PageAsm.Emission
import PageAsm.Run
import PageAsm.Pieces
import PageAsm.Buffer
import PageAsm.Delivery
import PageAsm.Assembly
import PageAsm.Settings
import PageAsm.Path
import PageAsm.Disk
import PageAsm.Reporter
import PageAsm.Request
import PageAsm.Session
import PageAsm.Main
import PageAsm.Proofs.Outcome
import PageAsm.Proofs.Step
import PageAsm.Proofs.Extent
import PageAsm.Proofs.LocationCounter
import PageAsm.Proofs.Shift
import PageAsm.Proofs.Relocation
import PageAsm.Proofs.MemoryLayout
import PageAsm.Proofs.LiteralReference
import PageAsm.Proofs.ListingAgreement
import PageAsm.Proofs.Fault
import PageAsm.Proofs.SymbolReference
import PageAsm.Proofs.ExternalNames
import PageAsm.Proofs.Patching
import PageAsm.Proofs.PageIndependence
import PageAsm.Proofs.Placement
import PageAsm.Proofs.Streaming
import PageAsm.Proofs.PatchNames
import PageAsm.Proofs.Renumbering
import PageAsm.Proofs.SourceEdits
import PageAsm.Proofs.OutputPaths
import PageAsm.Proofs.OpenFiles
import PageAsm.Proofs.CommandLine
import PageAsm.Proofs.Operands
import PageAsm.Proofs.Decoding
import PageAsm.Proofs.PageReference
import PageAsm.Proofs.LabelTable
import PageAsm.Proofs.LiteralPool
import PageAsm.Proofs.FailedStep
import PageAsm.Proofs.Acceptance
import PageAsm.Proofs.Aliases
import PageAsm.Proofs.ForwardReference
import PageAsm.Proofs.LineSpans
import PageAsm.Proofs.FieldText
import PageAsm.Proofs.FixedColumns
import PageAsm.Proofs.StringStorage
import PageAsm.Proofs.DigitText
import PageAsm.Proofs.NumeralGrammar
import PageAsm.Proofs.NumeralCodec
import PageAsm.Proofs.ObjectText
import PageAsm.Proofs.WordCount
import PageAsm.Proofs.TableHistory
import PageAsm.Proofs.BinaryText
import PageAsm.Proofs.WordFields
import PageAsm.Proofs.RegisterToken
