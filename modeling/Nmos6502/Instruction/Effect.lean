import Nmos6502.Cpu.Operand
import Nmos6502.Opcode.Family

/-! What each family does.

An instruction either works through an operand that its addressing mode locates, in
one of six ways (`Access`), or does one thing whatever the mode (`Effect.direct`).
The table `Family.effect` says which, and what is done with the bytes involved; how an
access is carried out is said once for all families in `Instruction.Execute`. -/
namespace Nmos6502

/-- A way of using an operand. -/
inductive Access where
  /-- Read a byte and use it. If the family `pays`, leaving the page costs a cycle. -/
  | read (pays : Bool) (use : Byte → Cpu → Cpu)
  /-- Change a byte in place, then use the new byte. Never costs a cycle more. -/
  | modify (op : Flags → Byte → Alu.Result) (use : Byte → Cpu → Cpu)
  /-- Write a byte made of the registers. -/
  | store (value : Registers → Byte)
  /-- Write a byte made of the registers, masked by one more than the page of the
  address before indexing; other registers may change first. -/
  | storeMasked (value : Registers → Byte) (registers : Registers → Registers)
  /-- Go to the operand's address. -/
  | jump
  /-- Read the operand, if there is one, and let it be. -/
  | idle

/-- What a family does. -/
inductive Effect where
  /-- One thing whatever the mode, with the operand bytes as they are. -/
  | direct (run : Word → Cpu → Cpu)
  /-- Something with the operand that the mode locates. -/
  | through (access : Access)

namespace Effect

/-- An effect that takes no operand. -/
abbrev implied (run : Cpu → Cpu) : Effect := direct fun _ s => run s

/-- An effect of the operand's low byte. -/
abbrev immediate (use : Byte → Cpu → Cpu) : Effect := direct fun w s => use w.low s

/-- An effect on the flags alone. -/
abbrev onFlags (change : Flags → Flags) : Effect :=
  direct fun _ s => {s with flags := change s.flags}

end Effect

namespace Cpu

/-! ### Effects that need no operand place -/

/-- Go to a signed distance from the next instruction if the flags say so: one cycle
more when taken, two when that leaves the page. -/
def branch (condition : Flags → Bool) (operand : Word) (s : Cpu) : Cpu :=
  if condition s.flags then
    let target := s.registers.pc + operand.low.toSignedWord
    let penalty := if s.registers.pc.crossesPage target then 2 else 1
    {s.charge penalty with registers.pc := target}
  else s

/-- Raise the software interrupt. -/
def breakOff (s : Cpu) : Cpu :=
  {s with flags.breakCommand := true, softwareRequest := true}

/-- Push the address of the last byte of the calling instruction and go to the operand. -/
def call (operand : Word) (s : Cpu) : Cpu :=
  {s.pushWord (s.registers.pc - 1) with registers.pc := operand}

/-- Pull the address that a call pushed and go to the one after it. -/
def returnFromCall (s : Cpu) : Cpu :=
  let (address, s) := s.pullWord
  {s with registers.pc := address + 1}

/-- Pull the address and the status byte that an interrupt pushed. -/
def returnFromInterrupt (s : Cpu) : Cpu :=
  let (address, s) := s.pullWord
  let (status, s) := s.pull
  {s with registers.pc := address, flags := .ofByte status}

/-- Push the status byte with the break bit set. -/
def pushStatus (s : Cpu) : Cpu := s.push (s.flags.toByte ||| 0x30)

def pullStatus (s : Cpu) : Cpu :=
  let (status, s) := s.pull
  {s with flags := .ofByte status}

def pullA (s : Cpu) : Cpu :=
  let (value, s) := s.pull
  s.loadA value

/-- Put a byte into the accumulator and the X register. -/
def loadAX (s : Cpu) (value : Byte) : Cpu :=
  {s with
    registers.a := value
    registers.x := value
    flags := s.flags.withResult value}

/-- Put a byte into the accumulator, the X register and the stack pointer. -/
def loadAXSP (s : Cpu) (value : Byte) : Cpu :=
  {s with
    registers.a := value
    registers.x := value
    registers.sp := value
    flags := s.flags.withResult value}

/-- Mask the accumulator; the carry follows the sign. -/
def maskCarry (value : Byte) (s : Cpu) : Cpu :=
  let s := s.loadA (s.registers.a &&& value)
  {s with flags.carry := s.flags.negative}

/-- Put the masked accumulator less a byte into the X register, with the flags of
their comparison. -/
def subtractX (value : Byte) (s : Cpu) : Cpu :=
  let masked := s.registers.a &&& s.registers.x
  {s with
    registers.x := masked - value
    flags := Alu.compare s.flags masked value}

end Cpu

namespace Family

/-- What a family does, and with which bytes. -/
def effect : Family → Effect
  -- sums, logic, comparisons
  | adc => .through (.read true fun v s => s.accumulate (Alu.add s.flags s.registers.a v))
  | sbc => .through (.read true fun v s => s.accumulate (Alu.subtract s.flags s.registers.a v))
  | and => .through (.read true fun v s => s.loadA (s.registers.a &&& v))
  | ora => .through (.read true fun v s => s.loadA (s.registers.a ||| v))
  | eor => .through (.read true fun v s => s.loadA (s.registers.a ^^^ v))
  | cmp => .through (.read true fun v s => {s with flags := Alu.compare s.flags s.registers.a v})
  | cpx => .through (.read false fun v s => {s with flags := Alu.compare s.flags s.registers.x v})
  | cpy => .through (.read false fun v s => {s with flags := Alu.compare s.flags s.registers.y v})
  | bit => .through (.read false fun v s => {s with flags := Alu.bitTest s.flags s.registers.a v})
  -- branches
  | bcc => .direct (Cpu.branch fun f => !f.carry)
  | bcs => .direct (Cpu.branch fun f => f.carry)
  | beq => .direct (Cpu.branch fun f => f.zero)
  | bne => .direct (Cpu.branch fun f => !f.zero)
  | bmi => .direct (Cpu.branch fun f => f.negative)
  | bpl => .direct (Cpu.branch fun f => !f.negative)
  | bvc => .direct (Cpu.branch fun f => !f.overflow)
  | bvs => .direct (Cpu.branch fun f => f.overflow)
  -- shifts and rotations
  | asl => .through (.modify Alu.shiftLeft fun _ s => s)
  | lsr => .through (.modify Alu.shiftRight fun _ s => s)
  | rol => .through (.modify Alu.rotateLeft fun _ s => s)
  | ror => .through (.modify Alu.rotateRight fun _ s => s)
  -- loads and stores
  | lda => .through (.read true fun v s => s.loadA v)
  | ldx => .through (.read true fun v s => s.loadX v)
  | ldy => .through (.read true fun v s => s.loadY v)
  | sta => .through (.store fun r => r.a)
  | stx => .through (.store fun r => r.x)
  | sty => .through (.store fun r => r.y)
  -- counting
  | inc => .through (.modify Alu.increment fun _ s => s)
  | dec => .through (.modify Alu.decrement fun _ s => s)
  | inx => .implied fun s => s.loadX (s.registers.x + 1)
  | iny => .implied fun s => s.loadY (s.registers.y + 1)
  | dex => .implied fun s => s.loadX (s.registers.x - 1)
  | dey => .implied fun s => s.loadY (s.registers.y - 1)
  -- control
  | brk => .implied Cpu.breakOff
  | jmp => .through .jump
  | jsr => .direct Cpu.call
  | rts => .implied Cpu.returnFromCall
  | rti => .implied Cpu.returnFromInterrupt
  | nop => .through .idle
  -- the stack
  | pha => .implied fun s => s.push s.registers.a
  | php => .implied Cpu.pushStatus
  | pla => .implied Cpu.pullA
  | plp => .implied Cpu.pullStatus
  -- flags
  | clc => .onFlags fun f => {f with carry := false}
  | sec => .onFlags fun f => {f with carry := true}
  | cli => .onFlags fun f => {f with interruptDisable := false}
  | sei => .onFlags fun f => {f with interruptDisable := true}
  | cld => .onFlags fun f => {f with decimal := false}
  | sed => .onFlags fun f => {f with decimal := true}
  | clv => .onFlags fun f => {f with overflow := false}
  -- transfers
  | tax => .implied fun s => s.loadX s.registers.a
  | tay => .implied fun s => s.loadY s.registers.a
  | txa => .implied fun s => s.loadA s.registers.x
  | tya => .implied fun s => s.loadA s.registers.y
  | tsx => .implied fun s => s.loadX s.registers.sp
  | txs => .implied fun s => {s with registers.sp := s.registers.x}
  -- a change of memory, then an operation of the accumulator
  | slo => .through (.modify Alu.shiftLeft fun v s => s.loadA (s.registers.a ||| v))
  | rla => .through (.modify Alu.rotateLeft fun v s => s.loadA (s.registers.a &&& v))
  | sre => .through (.modify Alu.shiftRight fun v s => s.loadA (s.registers.a ^^^ v))
  | rra => .through (.modify Alu.rotateRight fun v s =>
      s.accumulate (Alu.add s.flags s.registers.a v))
  | dcp => .through (.modify Alu.decrement fun v s =>
      {s with flags := Alu.compare s.flags s.registers.a v})
  | isc => .through (.modify Alu.increment fun v s =>
      s.accumulate (Alu.subtract s.flags s.registers.a v))
  -- two registers at once
  | sax => .through (.store fun r => r.a &&& r.x)
  | lax => .through (.read true fun v s => s.loadAX v)
  -- an immediate byte
  | anc => .immediate Cpu.maskCarry
  | alr => .immediate fun v s => s.accumulate (Alu.shiftRight s.flags (s.registers.a &&& v))
  | arr => .immediate fun v s =>
      s.accumulate (Alu.rotateRightMixed s.flags (s.registers.a &&& v))
  | ane => .immediate fun v s => s.loadA (s.registers.a &&& s.registers.x &&& v)
  | lxa => .immediate fun v s => s.loadAX v
  | sbx => .immediate Cpu.subtractX
  -- the stack pointer as a mask, and stores masked by a page
  | las => .through (.read true fun v s => s.loadAXSP (v &&& s.registers.sp))
  | sha => .through (.storeMasked (fun r => r.a &&& r.x) fun r => r)
  | shx => .through (.storeMasked (fun r => r.x) fun r => r)
  | shy => .through (.storeMasked (fun r => r.y) fun r => r)
  | tas => .through (.storeMasked (fun r => r.a &&& r.x) fun r => {r with sp := r.a &&& r.x})

end Family

end Nmos6502
