import RegisterMachine.Main
import RegisterMachine.Proofs.Bytecode.Fetch
import RegisterMachine.Proofs.Execution.Machine
import RegisterMachine.Proofs.Execution.Turn
import RegisterMachine.Proofs.Execution.Path
import RegisterMachine.Proofs.Dispatch.Direct
import RegisterMachine.Proofs.Verification.Foresight
import RegisterMachine.Proofs.Verification.Prediction
import RegisterMachine.Proofs.Verification.Soundness
import RegisterMachine.Proofs.Text.Words
import RegisterMachine.Proofs.Text.Numeral
import RegisterMachine.Proofs.Binary64.Rounding
import RegisterMachine.Proofs.Binary64.Shortest
import RegisterMachine.Proofs.Binary64.Literal
import RegisterMachine.Proofs.Assembly.Token
import RegisterMachine.Proofs.Assembly.Constant
import RegisterMachine.Proofs.Assembly.Reading
import RegisterMachine.Proofs.Assembly.Line
import RegisterMachine.Proofs.Assembly.Drafting
import RegisterMachine.Proofs.Assembly.LineErrors
import RegisterMachine.Proofs.Assembly.Joining
import RegisterMachine.Proofs.Assembly.RoundTrip
import RegisterMachine.Proofs.Dispatch.Building
import RegisterMachine.Proofs.Dispatch.Workshop
import RegisterMachine.Proofs.Dispatch.Race
import RegisterMachine.Proofs.Dispatch.Stage
import RegisterMachine.Proofs.Dispatch.Interleaving
import RegisterMachine.Proofs.Engine.Policy
import RegisterMachine.Proofs.Bytecode.Draft
import RegisterMachine.Proofs.Bytecode.Exactness
import RegisterMachine.Proofs.Verification.Drafts
import RegisterMachine.Proofs.Binary64.Nearest
import RegisterMachine.Proofs.Value.Arithmetic
import RegisterMachine.Proofs.CommandLine.Agreement
import RegisterMachine.Proofs.Bytecode.Interning
import RegisterMachine.Proofs.Execution.Step
import RegisterMachine.Proofs.Verification.Extension
import RegisterMachine.Proofs.Dispatch.Conversation
import RegisterMachine.Proofs.Verification.Report
import RegisterMachine.Proofs.Assembly.Guarded
import RegisterMachine.Proofs.Assembly.Contents
import RegisterMachine.Proofs.Value.Canonical
import RegisterMachine.Proofs.Execution.Primitives
import RegisterMachine.Proofs.Execution.Provenance
import RegisterMachine.Proofs.Execution.Trail
import RegisterMachine.Proofs.Dispatch.Budget
import RegisterMachine.Proofs.Execution.Progress
import RegisterMachine.Proofs.Execution.Stepping
import RegisterMachine.Proofs.Assembly.LetterCase
import RegisterMachine.Proofs.Value.Normalisation
import RegisterMachine.Proofs.Binary64.Number
import RegisterMachine.Proofs.Dispatch.Listing
import RegisterMachine.Proofs.Binary64.Overflow
import RegisterMachine.Proofs.Text.Digits
import RegisterMachine.Proofs.Binary64.Signed
import RegisterMachine.Proofs.Assembly.SingleLine
import RegisterMachine.Proofs.Assembly.Ranges
import RegisterMachine.Proofs.Assembly.Signs
