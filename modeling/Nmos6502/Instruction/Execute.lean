import Nmos6502.Instruction.Effect
import Nmos6502.Opcode.Encoding

/-! Carrying out an instruction.

Execution begins when the program counter is already past the instruction and the
state's `opcode` is the one being carried out. A family that works through an operand
takes the mode of that opcode from its own declarations, and an opcode it does not
declare is unknown to it. -/
namespace Nmos6502

namespace Access

/-- The address before indexing, whose page masks a masked store. -/
def base (m : Memory) (mode : AddressingMode) (operand : Word) : Word :=
  if mode = .indirectY then m.readZeroPageWord operand.low else operand

/-- Use the operand in the given mode. -/
def perform (access : Access) (mode : AddressingMode) (operand : Word) : Attempt Unit := fun s =>
  match access with
  | read pays use =>
    match s.readOperand mode operand with
    | .error fault => .error fault s
    | .ok (value, crossed) => .ok () (use value (if pays && crossed then s.charge 1 else s))
  | modify op use =>
    match Cpu.modifyOperand mode operand op s with
    | .error fault s => .error fault s
    | .ok value s => .ok () (use value s)
  | store value => Cpu.writeOperand mode operand (value s.registers) s
  | storeMasked value registers =>
    match s.effectiveAddress mode operand with
    -- the registers change before the address is looked for
    | .error fault => .error fault {s with registers := registers s.registers}
    | .ok target =>
      let mask := (base s.memory mode operand).high + 1
      .ok () {s with
        memory := s.memory.write target.address (value s.registers &&& mask)
        registers := registers s.registers}
  | jump =>
    match s.effectiveAddress mode operand with
    | .error fault => .error fault s
    | .ok target => .ok () {s with registers.pc := target.address}
  | idle =>
    if mode = .implicit then .ok () s
    else
      match s.readOperand mode operand with
      | .error fault => .error fault s
      | .ok (_, crossed) => .ok () (if crossed then s.charge 1 else s)

end Access

/-- Carry out an instruction of this family with the given operand. -/
def Family.execute (f : Family) (operand : Word) : Attempt Unit := fun s =>
  match f.effect with
  | .direct run => .ok () (run operand s)
  | .through access =>
    match f.encoding s.opcode with
    | .error fault => .error fault s
    | .ok e => access.perform e.mode operand s

end Nmos6502
