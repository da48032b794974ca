import HackVM.Assembly.Block
import HackVM.Assembly.Instruction
import HackVM.Command.Basic
import HackVM.Command.Bounds
import HackVM.Command.Error
import HackVM.Command.Parser
import HackVM.Command.Printer
import HackVM.Compilation
import HackVM.Counter
import HackVM.Datum.Basic
import HackVM.Datum.Printer
import HackVM.Diagnostic
import HackVM.Exchange.Assembly
import HackVM.Exchange.Basic
import HackVM.Exchange.Command
import HackVM.Exchange.Diagnostic
import HackVM.Image.Assembler
import HackVM.Image.Statement
import HackVM.Image.Symbol
import HackVM.Lowering.Command
import HackVM.Lowering.Context
import HackVM.Lowering.Frame
import HackVM.Lowering.Label
import HackVM.Lowering.Operation
import HackVM.Lowering.Stack
import HackVM.Machine.Basic
import HackVM.Machine.Memory
import HackVM.Source
import HackVM.Text.Blank
import HackVM.Text.Lines
import HackVM.Text.Numeral
import HackVM.Text.Words
import HackVM.Word
import HackVM.Proofs.Listing
import HackVM.Proofs.Layout
import HackVM.Proofs.Clash
import HackVM.Proofs.Refusal
import HackVM.Proofs.Renaming
import HackVM.Proofs.Relabelling
import HackVM.Proofs.Scoping
import HackVM.Proofs.RoundTrip
import HackVM.Proofs.Execution
import HackVM.Proofs.Program
import HackVM.Proofs.StackMachine
import HackVM.Proofs.Blocks
import HackVM.Proofs.Frame
import HackVM.Proofs.Reading
import HackVM.Proofs.Lowers
import HackVM.Proofs.Trace
import HackVM.Proofs.Placement
import HackVM.Proofs.Simulation
import HackVM.Proofs.Labels
import HackVM.Proofs.Warnings
import HackVM.Proofs.Alignment
import HackVM.Proofs.Counts
import HackVM.Proofs.History
import HackVM.Proofs.Accounting
import HackVM.Proofs.Composition
import HackVM.Proofs.Statics
import HackVM.Proofs.Privacy
import HackVM.Proofs.Markers
import HackVM.Proofs.Echo
import HackVM.Proofs.Assignment
import HackVM.Proofs.InPlace
import HackVM.Proofs.SignedOrder
import HackVM.Proofs.Entry
import HackVM.Proofs.Grammar
import HackVM.Proofs.Minting
import HackVM.Proofs.Immediates
import HackVM.Proofs.Slices
import HackVM.Proofs.MemoryFaults
import HackVM.Proofs.Agreement
import HackVM.Proofs.WideLoads
import HackVM.Proofs.FreeLayout
import HackVM.Proofs.CleanLines
import HackVM.Proofs.Acceptance
