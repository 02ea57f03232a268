import ScriptMachine.Chunk.Hex
import ScriptMachine.Code.Mnemonic
import ScriptMachine.Number.Bits
import ScriptMachine.Proofs.Chunk.Delimiting
import ScriptMachine.Proofs.Machine.Crashes
import ScriptMachine.Proofs.Machine.Debugging
import ScriptMachine.Proofs.Table.Clearing
import ScriptMachine.Table.Walk
import ScriptMachine.Text.Masking
import ScriptMachine.Proofs.Machine.Slicing
import ScriptMachine.Proofs.Machine.Requests
import ScriptMachine.Proofs.Machine.CallDepth
import ScriptMachine.Proofs.Machine.Finalization
import ScriptMachine.Proofs.Machine.CloseAnswers
import ScriptMachine.Proofs.Machine.ClosedOnce
import ScriptMachine.Proofs.Machine.MessageHandlers
import ScriptMachine.Proofs.Machine.Forwarding
import ScriptMachine.Proofs.Machine.Breakpoints
import ScriptMachine.Proofs.Number.Numerals
import ScriptMachine.Proofs.Machine.Tuples
