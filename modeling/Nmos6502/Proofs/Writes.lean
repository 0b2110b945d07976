import Nmos6502.Proofs.Access
import Nmos6502.Proofs.Requests

/-! What a cycle writes.

Memory is written in three ways only: by the frame of an interrupt (`Cpu.serviceWrites`), by
an instruction that changes the byte its operand names (`Family.change?`), and by the three
that push. The writes of a cycle are listed in order (`Machine.writes`), and the memory after it
is the memory before it with these written (`Machine.memory_cycle`). Those of an instruction are
read off the state it is fetched in, so one that overwrites its own pointer or its own code
still writes where it was going to. -/
namespace Nmos6502

namespace Memory

/-- Write byte after byte; at an address written twice the later byte stays. -/
def writeAll (m : Memory) : List (Word × Byte) → Memory
  | [] => m
  | (address, value) :: rest => (m.write address value).writeAll rest

theorem writeAll_append (m : Memory) (front rest : List (Word × Byte)) :
    m.writeAll (front ++ rest) = (m.writeAll front).writeAll rest := by
  induction front generalizing m with
  | nil => rfl
  | cons w front ih => exact ih _

theorem read_writeAll_of_notMem {m : Memory} {writes : List (Word × Byte)} {a : Word}
    (h : a ∉ writes.map Prod.fst) : (m.writeAll writes).read a = m.read a := by
  induction writes generalizing m with
  | nil => rfl
  | cons w rest ih =>
    rw [List.map_cons, List.mem_cons, not_or] at h
    show ((m.write w.1 w.2).writeAll rest).read a = _
    rw [ih h.2, read_write_of_ne _ _ (Ne.symm h.1)]

end Memory

/-! ### Operands -/

/-- What becomes of an operand byte, from the flags, the registers, the mask that the page of
the address before indexing makes, and the byte there was. -/
abbrev Change := Flags → Registers → (mask old : Byte) → Byte

/-- What a family makes of its operand byte, if it writes one. -/
def Family.change? : Family → Option Change
  | sta => some fun _ r _ _ => r.a
  | stx => some fun _ r _ _ => r.x
  | sty => some fun _ r _ _ => r.y
  | sax => some fun _ r _ _ => r.a &&& r.x
  | sha | tas => some fun _ r mask _ => r.a &&& r.x &&& mask
  | shx => some fun _ r mask _ => r.x &&& mask
  | shy => some fun _ r mask _ => r.y &&& mask
  | inc | isc => some fun _ _ _ old => old + 1
  | dec | dcp => some fun _ _ _ old => old - 1
  | asl | slo => some fun f _ _ old => (Alu.shiftLeft f old).value
  | lsr | sre => some fun f _ _ old => (Alu.shiftRight f old).value
  | rol | rla => some fun f _ _ old => (Alu.rotateLeft f old).value
  | ror | rra => some fun f _ _ old => (Alu.rotateRight f old).value
  | _ => none

/-- What an access makes of its operand byte, if it writes one. -/
def Access.change? : Access → Option Change
  | modify op _ => some fun f _ _ old => (op f old).value
  | store value => some fun _ r _ _ => value r
  | storeMasked value _ => some fun _ r mask _ => value r &&& mask
  | read _ _ | jump | idle => none

/-- The table agrees with what the families do. -/
theorem Family.change?_of_through {f : Family} {access : Access}
    (h : f.effect = .through access) : f.change? = access.change? := by
  cases f <;> cases h <;> rfl

/-- Where a family that writes its operand declares a mode, the operand has an address or is
the accumulator. -/
theorem Family.isAddress_of_change {f : Family} (h : f.change?.isSome = true) {e : Encoding}
    (he : e ∈ f.encodings) (hm : e.mode ≠ .accumulator) : e.mode.isAddress = true := by
  revert e
  cases f <;> first | decide | cases h

theorem Family.change_pc {f : Family} {change : Change} (h : f.change? = some change)
    (flags : Flags) (r : Registers) (pc : Word) :
    change flags {r with pc} = change flags r := by
  cases f <;> cases h <;> rfl

namespace Cpu
variable {s : Cpu} {mode : AddressingMode} {operand : Word}

/-- The write of a changed operand byte, to the effective address if the mode has one. -/
def operandWrites (s : Cpu) (mode : AddressingMode) (operand : Word) :
    Option Change → List (Word × Byte)
  | none => []
  | some change =>
    match s.effectiveAddress mode operand with
    | .error _ => []
    | .ok target => [(target.address, change s.flags s.registers
        ((Access.base s.memory mode operand).high + 1) (s.memory.read target.address))]

theorem operandWrites_of_ok {target : Target} (h : s.effectiveAddress mode operand = .ok target)
    (change : Change) :
    s.operandWrites mode operand (some change) = [(target.address, change s.flags s.registers
      ((Access.base s.memory mode operand).high + 1) (s.memory.read target.address))] := by
  simp only [operandWrites, h]

/-- Putting a byte where the operand was is the one write of the operand. -/
theorem memory_put {p : Place} (h : s.place mode operand = .ok p) {change : Change} {value : Byte}
    (hv : value = change s.flags s.registers ((Access.base s.memory mode operand).high + 1)
      (s.get p).1) :
    (s.put p value).memory = s.memory.writeAll (s.operandWrites mode operand (some change)) := by
  rcases effectiveAddress_of_place h with ⟨rfl, rfl⟩ | ⟨l, rfl, ht⟩
  · rfl
  · rw [operandWrites_of_ok ht, hv]
    rfl

end Cpu

/-- An access writes its operand, if it changes it, and nothing else. -/
theorem Access.Done.memory {access : Access} {mode : AddressingMode} {operand : Word} {s t : Cpu}
    (h : access.Done mode operand s t) (hq : access.Quiet) :
    t.memory = s.memory.writeAll (s.operandWrites mode operand access.change?) := by
  cases h with
  | @read pays use v crossed found =>
    rw [(hq _ _).1]
    split <;> rfl
  | @modify op use v crossed p found place =>
    rw [Cpu.readOperand_of_place place, Except.ok.injEq] at found
    rw [(hq _ _).1]
    -- the new flags are there before the byte is written, which does not read them
    have hput (flags : Flags) (b : Byte) :
        (Cpu.put {s with flags} p b).memory = (s.put p b).memory := by
      cases p <;> rfl
    rw [hput]
    exact Cpu.memory_put place (by rw [found])
  | @store value p place => exact Cpu.memory_put place rfl
  | @storeMasked value registers target found =>
    show _ = s.memory.writeAll (s.operandWrites mode operand (some _))
    rw [Cpu.operandWrites_of_ok found]
    rfl
  | jump found | rest implicit => rfl
  | idle found => split <;> rfl

/-! ### Instructions -/

namespace Family
variable {f : Family} {mode : AddressingMode} {operand : Word} {s : Cpu}

/-- What an instruction writes when it is carried out in a state, with the address of the
instruction after it. -/
def writes (f : Family) (mode : AddressingMode) (operand next : Word) (s : Cpu) :
    List (Word × Byte) :=
  match f with
  | pha => [(Stack.slot s.registers.sp, s.registers.a)]
  | php => [(Stack.slot s.registers.sp, s.flags.toByte ||| 0x30)]
  | jsr => [(Stack.slot s.registers.sp, (next - 1).high),
      (Stack.slot (s.registers.sp - 1), (next - 1).low)]
  | f => s.operandWrites mode operand f.change?

theorem writes_of_through {access : Access} (h : f.effect = .through access) (next : Word) :
    f.writes mode operand next s = s.operandWrites mode operand access.change? := by
  rw [← change?_of_through h]
  cases f <;> first | rfl | cases h

theorem writes_of_change {change : Change} (h : f.change? = some change) (next : Word) :
    f.writes mode operand next s = s.operandWrites mode operand (some change) := by
  rw [← h]
  cases f <;> first | rfl | cases h

theorem memory_direct {run : Word → Cpu → Cpu} (h : f.effect = .direct run) :
    (run operand s).memory = s.memory.writeAll (f.writes mode operand s.registers.pc s) := by
  cases f <;> cases h
  case bcc | bcs | beq | bne | bmi | bpl | bvc | bvs =>
    unfold Cpu.branch
    split <;> rfl
  all_goals rfl

theorem memory_execute {t : Cpu} (h : f.execute operand s = .ok () t)
    (hm : ∀ e, f.encoding? s.opcode = some e → e.mode = mode) :
    t.memory = s.memory.writeAll (f.writes mode operand s.registers.pc s) := by
  cases executed h with
  | direct run effect eq => rw [eq, memory_direct effect]
  | through access e effect declared done =>
    rw [done.memory (quiet_of_through effect), writes_of_through effect, hm e declared]

end Family

namespace Instruction
variable {i : Instruction} {s : Cpu}

/-- What a fetched instruction writes, read off the state it was fetched in. -/
def writes (i : Instruction) (s : Cpu) : List (Word × Byte) :=
  i.encoding.family.writes i.encoding.mode i.operand i.next s

/-- Passing the instruction by changes nothing that its writes are made of. -/
theorem writes_take (i : Instruction) (s : Cpu) : i.writes (i.take s) = i.writes s := by
  have hoperand : (i.take s).operandWrites i.encoding.mode i.operand i.encoding.family.change? =
      s.operandWrites i.encoding.mode i.operand i.encoding.family.change? := by
    cases hc : i.encoding.family.change? with
    | none => rfl
    | some change =>
      have hr : change (i.take s).flags (i.take s).registers = change s.flags s.registers :=
        Family.change_pc hc s.flags s.registers i.next
      simp only [Cpu.operandWrites, hr]
      cases i.encoding.mode <;> rfl
  unfold writes Family.writes
  split
  iterate 3 rfl
  exact hoperand

/-- Where an operand is written: at the effective address, or nowhere if it is the
accumulator. -/
theorem writes_of_change (hi : s.fetch = .ok i) (h : i.encoding.family.change?.isSome = true) :
    if i.encoding.mode = .accumulator then i.writes s = []
    else ∃ target, s.effectiveAddress i.encoding.mode i.operand = .ok target ∧
      (i.writes s).map Prod.fst = [target.address] := by
  obtain ⟨change, hc⟩ := Option.isSome_iff_exists.mp h
  have hw : i.writes s = s.operandWrites i.encoding.mode i.operand (some change) :=
    Family.writes_of_change hc i.next
  split <;> rename_i hm
  · rw [hw, hm]
    rfl
  · have he : i.encoding ∈ i.encoding.family.encodings :=
      List.mem_of_find?_eq_some (encoding?_of_fetch hi)
    obtain ⟨target, ht⟩ :=
      s.effectiveAddress_of_isAddress (Family.isAddress_of_change h he hm) i.operand
    exact ⟨target, ht, by rw [hw, Cpu.operandWrites_of_ok ht]; rfl⟩

end Instruction

namespace Cpu
variable {s t : Cpu}

theorem memory_instruct {i : Instruction} (hi : s.fetch = .ok i) (ht : s.instruct = .ok t) :
    t.memory = s.memory.writeAll (i.writes s) := by
  rw [← Instruction.writes_take]
  refine Family.memory_execute (execute_of_instruct hi ht) fun e he => ?_
  have hd := (Instruction.encoding?_of_fetch hi).symm.trans he
  rw [Option.some.inj hd]

/-! ### Interrupts -/

/-- What the service of an interrupt writes, if one may be served: the status byte and the
program counter. -/
def serviceWrites (s : Cpu) : List (Word × Byte) :=
  match s.pendingInterrupt with
  | none => []
  | some k =>
    [(Stack.slot s.registers.sp, {s.flags with breakCommand := k.isBreak}.toByte),
      (Stack.slot (s.registers.sp - 1), s.registers.pc.high),
      (Stack.slot (s.registers.sp - 2), s.registers.pc.low)]

theorem memory_takeInterrupt (s : Cpu) :
    s.takeInterrupt.memory = s.memory.writeAll s.serviceWrites := by
  unfold serviceWrites
  split <;> rename_i h
  · rw [takeInterrupt_of_none h]
    rfl
  · rw [takeInterrupt_of_some h, show s.registers.sp - 2 = s.registers.sp - 1 - 1 by bv_omega]
    rfl

/-- What the instruction at the program counter writes, if there is one. -/
def instructionWrites (s : Cpu) : List (Word × Byte) :=
  match s.fetch with
  | .error _ => []
  | .ok i => i.writes s

end Cpu

/-! ### Cycles -/

namespace Machine
variable {m : Machine}

/-- What a cycle writes: at a boundary the frame of the interrupt it serves, then, unless that
leads to the halt address, the writes of the instruction found there. -/
def writes (m : Machine) : List (Word × Byte) :=
  if m.phase = .boundary then
    m.cpu.serviceWrites ++
      if m.cpu.takeInterrupt.isRunning then m.cpu.takeInterrupt.instructionWrites else []
  else []

theorem writes_of_not_atBoundary (h : ¬m.AtBoundary) : m.writes = [] :=
  if_neg fun hp => h (phase_eq_boundary_iff.mp hp)

theorem AtBoundary.writes_of_vectored (h : m.AtBoundary)
    (halt : m.cpu.takeInterrupt.registers.pc = Cpu.haltAddress) :
    m.writes = m.cpu.serviceWrites := by
  simp [writes, h.phase, Cpu.isRunning, halt]

theorem Undecodable.writes (h : m.Undecodable) : m.writes = m.cpu.serviceWrites := by
  simp [Machine.writes, h.phase, Cpu.instructionWrites, h.fetch]

theorem Begins.writes {i : Instruction} {t : Cpu} (h : m.Begins i t) :
    m.writes = m.cpu.serviceWrites ++ i.writes m.cpu.takeInterrupt := by
  simp [Machine.writes, h.phase, Cpu.isRunning, h.vectored, Cpu.instructionWrites, h.fetch]

theorem memory_cycle (m : Machine) : m.cycle.2.cpu.memory = m.cpu.memory.writeAll m.writes := by
  by_cases h : m.AtBoundary
  · cases h.beginning with
    | vectored halt eq =>
      rw [eq, h.writes_of_vectored halt]
      exact m.cpu.memory_takeInterrupt
    | undeclared undecodable eq =>
      rw [eq, undecodable.writes]
      exact m.cpu.memory_takeInterrupt
    | retired i t begins eq =>
      rw [eq, begins.writes, Memory.writeAll_append, ← Cpu.memory_takeInterrupt]
      show t.memory = _
      exact Cpu.memory_instruct begins.fetch begins.instruct
  · rw [writes_of_not_atBoundary h]
    rcases cycle_of_not_atBoundary h with eq | eq <;> rw [eq] <;> rfl

/-- Cycles write what each of them writes, in turn. -/
theorem memory_after (m : Machine) (n : Nat) :
    (m.after n).cpu.memory =
      m.cpu.memory.writeAll ((List.range n).flatMap fun k => (m.after k).writes) := by
  induction n with
  | zero => rfl
  | succ n ih =>
    show (m.after n).cycle.2.cpu.memory = _
    rw [memory_cycle, ih, List.range_succ, List.flatMap_append, Memory.writeAll_append,
      List.flatMap_singleton]

/-- An address that none of the cycles writes to keeps its byte. -/
theorem read_after {n : Nat} {a : Word}
    (h : ∀ k < n, a ∉ (m.after k).writes.map Prod.fst) :
    (m.after n).cpu.memory.read a = m.cpu.memory.read a := by
  rw [memory_after]
  apply Memory.read_writeAll_of_notMem
  simpa [List.map_flatMap] using h

/-- **The writes of a cycle** are all that it does to memory: none but at a boundary, there
the frame of the interrupt served, and after it those of the instruction begun, read off the
state that the service left. -/
theorem cycle_writes (m : Machine) :
    m.cycle.2.cpu.memory = m.cpu.memory.writeAll m.writes ∧
    (∀ a, a ∉ m.writes.map Prod.fst → m.cycle.2.cpu.memory.read a = m.cpu.memory.read a) ∧
    (¬m.AtBoundary → m.writes = []) ∧
    (m.AtBoundary → m.cpu.takeInterrupt.registers.pc = Cpu.haltAddress →
      m.writes = m.cpu.serviceWrites) ∧
    (m.Undecodable → m.writes = m.cpu.serviceWrites) ∧
    ∀ i t, m.Begins i t →
      m.writes = m.cpu.serviceWrites ++ i.writes m.cpu.takeInterrupt ∧
      (i.encoding.family.change?.isSome = true →
        if i.encoding.mode = .accumulator then i.writes m.cpu.takeInterrupt = []
        else ∃ target,
          m.cpu.takeInterrupt.effectiveAddress i.encoding.mode i.operand = .ok target ∧
          (i.writes m.cpu.takeInterrupt).map Prod.fst = [target.address]) := by
  refine ⟨m.memory_cycle, fun a ha => ?_, writes_of_not_atBoundary,
    AtBoundary.writes_of_vectored, Undecodable.writes, fun i t h => ⟨h.writes, ?_⟩⟩
  · rw [m.memory_cycle, Memory.read_writeAll_of_notMem ha]
  · exact Instruction.writes_of_change h.fetch

end Machine

end Nmos6502
