import Nmos6502.Word.Decimal
import Nmos6502.FrontPanel
import Nmos6502.Proofs.Cycle
import Nmos6502.Proofs.Timing
import Nmos6502.Proofs.Operation
import Nmos6502.Proofs.Standstill
import Nmos6502.Proofs.Requests
import Nmos6502.Proofs.Run
import Nmos6502.Proofs.Frame
import Nmos6502.Proofs.Consistency
import Nmos6502.Proofs.Writes
import Nmos6502.Proofs.Snapshot.Codec
import Nmos6502.Proofs.Snapshot.Acceptance
import Nmos6502.Proofs.Snapshot.Resume
import Nmos6502.Proofs.Resolution
import Nmos6502.Proofs.Locality
import Nmos6502.Proofs.Restart
import Nmos6502.Proofs.RegisterFrame
import Nmos6502.Proofs.Program
import Nmos6502.Proofs.Stack.Contents
import Nmos6502.Proofs.Stack.Frames
import Nmos6502.Proofs.ForcedService
import Nmos6502.Proofs.Budget
import Nmos6502.Proofs.Addressing
import Nmos6502.Proofs.Composites
import Nmos6502.Proofs.Arithmetic.Binary
import Nmos6502.Proofs.Arithmetic.Checked
import Nmos6502.Proofs.Arithmetic.Decimal
import Nmos6502.Proofs.Arithmetic.Shifts
import Nmos6502.Proofs.InterruptReturn
import Nmos6502.Proofs.Stack.Lifo
import Nmos6502.Proofs.Stores
import Nmos6502.Proofs.Faults
import Nmos6502.Proofs.Copying
import Nmos6502.Proofs.Aliases
import Nmos6502.Proofs.Disassembly
