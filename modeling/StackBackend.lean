import StackBackend.Host.Simulated
import StackBackend.Main
import StackBackend.Stack.Eval
import StackBackend.Target.Machine
import StackBackend.Proofs.Results
import StackBackend.Proofs.Emission
import StackBackend.Proofs.Machine
import StackBackend.Proofs.Operators
import StackBackend.Proofs.Calls
import StackBackend.Proofs.Code
import StackBackend.Proofs.Acceptance
import StackBackend.Proofs.History
import StackBackend.Proofs.Simulation
import StackBackend.Proofs.Correctness
import StackBackend.Proofs.Procedure
import StackBackend.Proofs.StackCells
import StackBackend.Proofs.Effects
import StackBackend.Proofs.FrameSize
import StackBackend.Proofs.FrameBytes
import StackBackend.Proofs.Encoding
import StackBackend.Proofs.Numerals
import StackBackend.Proofs.Grammar
import StackBackend.Proofs.RoundTrip
import StackBackend.Proofs.AssemblyText
import StackBackend.Proofs.Disassembly
import StackBackend.Proofs.Comments
import StackBackend.Proofs.Rejection
import StackBackend.Proofs.Lines
import StackBackend.Proofs.Spans
import StackBackend.Proofs.Symbols
import StackBackend.Proofs.Ancestors
import StackBackend.Proofs.SettingsFile
import StackBackend.Proofs.TrailingText
import StackBackend.Proofs.Discovery
import StackBackend.Proofs.Constants
import StackBackend.Proofs.Division
import StackBackend.Proofs.FileNames
import StackBackend.Proofs.Outputs
