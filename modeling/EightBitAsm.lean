import EightBitAsm.Assembly.Image
import EightBitAsm.Assembly.Layout
import EightBitAsm.Assembly.Listing
import EightBitAsm.CommandLine.Arguments
import EightBitAsm.CommandLine.Assembler
import EightBitAsm.CommandLine.Config
import EightBitAsm.CommandLine.Encoder
import EightBitAsm.CommandLine.System
import EightBitAsm.CommandLine.Tree
import EightBitAsm.CommandLine.Report
import EightBitAsm.Diagnostic
import EightBitAsm.Environment
import EightBitAsm.Event
import EightBitAsm.Identifier
import EightBitAsm.Instruction
import EightBitAsm.InstructionSet
import EightBitAsm.Json.Reader
import EightBitAsm.Json.Tags
import EightBitAsm.Json.Value
import EightBitAsm.Json.Widths
import EightBitAsm.Literal
import EightBitAsm.Main
import EightBitAsm.MnemonicTable
import EightBitAsm.NameMap
import EightBitAsm.Register
import EightBitAsm.Result
import EightBitAsm.Scope
import EightBitAsm.Session
import EightBitAsm.Source.Line
import EightBitAsm.Source.Program
import EightBitAsm.Tags
import EightBitAsm.Text.Blank
import EightBitAsm.Text.Lowercase
import EightBitAsm.Text.Numeral
import EightBitAsm.Text.Split
import EightBitAsm.Text.Uppercase
import EightBitAsm.Text.UppercaseTable
import EightBitAsm.Widths
import EightBitAsm.Word
import EightBitAsm.Proofs.ByteSink
import EightBitAsm.Proofs.Operation
import EightBitAsm.Proofs.AddressBits
import EightBitAsm.Proofs.Packing
import EightBitAsm.Proofs.Layout
import EightBitAsm.Proofs.Image
import EightBitAsm.Proofs.Agreement
import EightBitAsm.Proofs.InstructionSet
import EightBitAsm.Proofs.Jumps
import EightBitAsm.Proofs.UniqueDecoding
import EightBitAsm.Proofs.Outcome
import EightBitAsm.Proofs.ScopeChange
import EightBitAsm.Proofs.SessionRun
import EightBitAsm.Proofs.Widening
import EightBitAsm.Proofs.Appending
import EightBitAsm.Proofs.EncoderCommand
import EightBitAsm.Proofs.OneInstruction
import EightBitAsm.Proofs.LabelNames
import EightBitAsm.Proofs.Declarations
import EightBitAsm.Proofs.Renumbering
import EightBitAsm.Proofs.SourceForm
import EightBitAsm.Proofs.RegisterText
import EightBitAsm.Proofs.InstructionCode
import EightBitAsm.Proofs.CycleFaults
import EightBitAsm.Proofs.LineGrammar
import EightBitAsm.Proofs.LinePrinting
import EightBitAsm.Proofs.LiteralLanguage
import EightBitAsm.Proofs.Resolution
import EightBitAsm.Proofs.ListingText
import EightBitAsm.Proofs.JobRuns
import EightBitAsm.Proofs.TreePaths
import EightBitAsm.Proofs.FileEffects
import EightBitAsm.Proofs.ByteOrder
import EightBitAsm.Proofs.VariableStore
import EightBitAsm.Proofs.TableMerge
import EightBitAsm.Proofs.RegisterGrammar
import EightBitAsm.Proofs.LabelExport
