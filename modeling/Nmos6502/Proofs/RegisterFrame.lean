import Nmos6502.Proofs.Access

/-! What an instruction does to registers and flags.

A register or flag changes under a few families only (`Family.changes`, a list for each
`Part`), and the rest of the instruction set leaves it alone. Zero and negative are the
exception: most families set them, and those that do show one byte in them, the last result of
the instruction (`Family.shown`). That is the byte it leaves in a register or in its operand;
a comparison shows a difference it leaves nowhere, a bit test and the pulls of a status byte
show a byte of their own, and a sum or difference of packed digits shows the binary one
instead of the byte it leaves.

So a program keeps a register or flag as long as it begins no instruction listed for it, where
neither interrupts nor the fetch touch it either (`Machine.same_after`). -/
namespace Nmos6502

/-! ### Parts -/

/-- The registers and the flags, but for zero and negative. -/
inductive Part where
  | a
  | x
  | y
  | sp
  | pc
  | carry
  | interruptDisable
  | decimal
  | breakCommand
  | overflow
deriving DecidableEq, Repr

/-- Two states have the same in a part. -/
def Part.Same (part : Part) (s t : Cpu) : Prop :=
  match part with
  | a => t.registers.a = s.registers.a
  | x => t.registers.x = s.registers.x
  | y => t.registers.y = s.registers.y
  | sp => t.registers.sp = s.registers.sp
  | pc => t.registers.pc = s.registers.pc
  | carry => t.flags.carry = s.flags.carry
  | interruptDisable => t.flags.interruptDisable = s.flags.interruptDisable
  | decimal => t.flags.decimal = s.flags.decimal
  | breakCommand => t.flags.breakCommand = s.flags.breakCommand
  | overflow => t.flags.overflow = s.flags.overflow

namespace Family

/-- The families that a part may change under; the accumulator changes under a shift of itself. -/
def changes (f : Family) (mode : AddressingMode) : Part → Bool
  | .a => match f with
    | adc | sbc | and | ora | eor | lda | txa | tya | pla | slo | rla | sre | rra | isc | lax | las
    | anc | alr | arr | ane | lxa => true
    | asl | lsr | rol | ror => mode == .accumulator
    | _ => false
  | .x => match f with
    | ldx | tax | tsx | inx | dex | lax | las | lxa | sbx => true
    | _ => false
  | .y => match f with
    | ldy | tay | iny | dey => true
    | _ => false
  | .sp => match f with
    | pha | php | pla | plp | jsr | rts | rti | txs | las | tas => true
    | _ => false
  | .pc => match f with
    | bcc | bcs | beq | bne | bmi | bpl | bvc | bvs | jmp | jsr | rts | rti => true
    | _ => false
  | .carry => match f with
    | adc | sbc | cmp | cpx | cpy | asl | lsr | rol | ror | slo | rla | sre | rra | dcp | isc | anc
    | alr | arr | sbx | clc | sec | plp | rti => true
    | _ => false
  | .interruptDisable => match f with
    | sei | cli | plp | rti => true
    | _ => false
  | .decimal => match f with
    | sed | cld | plp | rti => true
    | _ => false
  | .breakCommand => match f with
    | brk | plp | rti => true
    | _ => false
  | .overflow => match f with
    | adc | sbc | rra | isc | bit | arr | clv | plp | rti => true
    | _ => false

end Family

/-! ### Zero and negative -/

/-- What zero and negative show after an instruction. -/
inductive Shown where
  /-- What they showed before. -/
  | kept
  /-- Whether a byte is zero and its sign. -/
  | result (b : Byte)
  /-- Whether a byte is zero under a mask, and its sign. -/
  | masked (mask b : Byte)
  /-- Their bits of a status byte. -/
  | status (b : Byte)
deriving DecidableEq, Repr

namespace Shown

def zero (before : Flags) : Shown → Bool
  | kept => before.zero
  | result b => b == 0
  | masked mask b => mask &&& b == 0
  | status b => b.isBitSet 1

def negative (before : Flags) : Shown → Bool
  | kept => before.negative
  | result b | masked _ b => b.isNegative
  | status b => b.isBitSet 7

/-- The flags after an instruction show this. -/
def In (shown : Shown) (before after : Flags) : Prop :=
  after.zero = shown.zero before ∧ after.negative = shown.negative before

end Shown

namespace Alu

/-- The binary sum with the carry. -/
def sum (carry : Bool) (a b : Byte) : Byte := a + b + BitVec.ofNat 8 carry.toNat

/-- The binary difference less the borrow, which is a clear carry. -/
def difference (carry : Bool) (a b : Byte) : Byte := a - b - BitVec.ofNat 8 (!carry).toNat

theorem value_addBinary (flags : Flags) (a b : Byte) :
    (addBinary flags a b).value = sum flags.carry a b := by
  show BitVec.ofNat 8 (a.toNat + b.toNat + flags.carry.toNat) = _
  rw [BitVec.ofNat_add, BitVec.ofNat_add, BitVec.ofNat_toNat, BitVec.ofNat_toNat]
  rfl

theorem sum_not (carry : Bool) (a b : Byte) : sum carry a (~~~b) = difference carry a b := by
  cases carry
  · show a + ~~~b + 0 = a - b - 1
    bv_omega
  · show a + ~~~b + 1 = a - b - 0
    bv_omega

theorem value_addBinary_not (flags : Flags) (a b : Byte) :
    (addBinary flags a (~~~b)).value = difference flags.carry a b := by
  rw [value_addBinary, sum_not]

/-- The flags of a result show a byte, and otherwise differ in carry and overflow only. -/
structure Result.Shows (r : Result) (flags : Flags) (b : Byte) : Prop where
  shown : (Shown.result b).In flags r.flags
  interruptDisable : r.flags.interruptDisable = flags.interruptDisable
  decimal : r.flags.decimal = flags.decimal
  breakCommand : r.flags.breakCommand = flags.breakCommand

/-- A sum shows the binary one, packed digits or not. -/
theorem shows_add (flags : Flags) (a b : Byte) :
    (add flags a b).Shows flags (sum flags.carry a b) := by
  rw [← value_addBinary]
  unfold add
  cases flags.decimal <;> exact ⟨⟨rfl, rfl⟩, rfl, rfl, rfl⟩

theorem shows_subtract (flags : Flags) (a b : Byte) :
    (subtract flags a b).Shows flags (difference flags.carry a b) := by
  rw [← value_addBinary_not]
  unfold subtract
  cases flags.decimal <;> exact ⟨⟨rfl, rfl⟩, rfl, rfl, rfl⟩

theorem value_add {flags : Flags} (h : flags.decimal = false) (a b : Byte) :
    (add flags a b).value = sum flags.carry a b := by
  rw [← value_addBinary, add, h]
  rfl

theorem value_subtract {flags : Flags} (h : flags.decimal = false) (a b : Byte) :
    (subtract flags a b).value = difference flags.carry a b := by
  rw [← value_addBinary_not, subtract, h]
  rfl

end Alu

/-- What zero and negative show after an instruction, from the states before and after it and
the byte of its operand in either. -/
def Family.shown (f : Family) (s t : Cpu) (old new : Byte) : Shown :=
  match f with
  | and | ora | eor | lda | txa | tya | pla | slo | rla | sre | lax | las | anc | alr | arr | ane
  | lxa => .result t.registers.a
  | ldx | tax | tsx | inx | dex | sbx => .result t.registers.x
  | ldy | tay | iny | dey => .result t.registers.y
  | inc | dec | asl | lsr | rol | ror => .result new
  | cmp => .result (s.registers.a - old)
  | cpx => .result (s.registers.x - old)
  | cpy => .result (s.registers.y - old)
  | dcp => .result (s.registers.a - new)
  | adc => .result (Alu.sum s.flags.carry s.registers.a old)
  | sbc => .result (Alu.difference s.flags.carry s.registers.a old)
  | rra => .result (Alu.sum (old.isBitSet 0) s.registers.a new)
  | isc => .result (Alu.difference s.flags.carry s.registers.a new)
  | bit => .masked s.registers.a old
  | plp => .status (s.memory.read (Stack.slot (s.registers.sp + 1)))
  | rti => .status (s.memory.read (Stack.slot (s.registers.sp + 3)))
  | sta | stx | sty | sax | sha | shx | shy | tas | bcc | bcs | beq | bne | bmi | bpl | bvc | bvs
  | jmp | jsr | rts | brk | nop | pha | php | txs | clc | sec | cli | sei | cld | sed | clv => .kept

/-! ### Operand bytes -/

namespace Cpu
variable {s t : Cpu} {mode : AddressingMode} {operand : Word}

/-- The byte that the operand of an instruction in `s` holds in `t`: at its place, or at hand. -/
def operandIn (s : Cpu) (mode : AddressingMode) (operand : Word) (t : Cpu) : Byte :=
  match s.place mode operand with
  | .ok .accumulator => t.registers.a
  | .ok (.cell l) => t.memory.read (l.target s.memory).address
  | .error _ => operand.low

theorem operandIn_of_readOperand {v : Byte} {crossed : Bool}
    (h : s.readOperand mode operand = .ok (v, crossed)) : s.operandIn mode operand s = v := by
  cases mode <;> cases h <;> rfl

/-- A cycle that is charged or not. -/
theorem charge_ite (c : Bool) (s : Cpu) :
    (if c then s.charge 1 else s) = s.charge (if c then 1 else 0) := by
  cases c
  · exact s.charge_zero.symm
  · rfl

end Cpu

namespace Access
variable {mode : AddressingMode} {operand : Word} {s t : Cpu}

/-! What an access leaves, up to the cycle it may pay and the memory it writes. -/

theorem of_done_read {pays : Bool} {use : Byte → Cpu → Cpu}
    (h : Done mode operand s (.read pays use) t) :
    ∃ cycles, t = use (s.operandIn mode operand s) (s.charge cycles) := by
  cases h with
  | @read _ _ v crossed found =>
    rw [Cpu.operandIn_of_readOperand found, Cpu.charge_ite]
    exact ⟨_, rfl⟩

theorem of_done_idle (h : Done mode operand s .idle t) : ∃ cycles, t = s.charge cycles := by
  cases h with
  | rest implicit => exact ⟨0, s.charge_zero.symm⟩
  | idle found => exact ⟨_, Cpu.charge_ite _ s⟩

theorem of_done_store {value : Registers → Byte} (h : Done mode operand s (.store value) t)
    (hm : mode ≠ .accumulator) : ∃ memory, t = s.withMemory memory := by
  cases h with
  | @store _ p place =>
    rcases Cpu.effectiveAddress_of_place place with ⟨ha, -⟩ | ⟨l, rfl, -⟩
    · exact absurd ha hm
    · exact ⟨_, rfl⟩

theorem of_done_modify {op : Flags → Byte → Alu.Result} {use : Byte → Cpu → Cpu}
    (h : Done mode operand s (.modify op use) t) (hq : Quiet (.modify op use))
    (hm : mode ≠ .accumulator) :
    let result := op s.flags (s.operandIn mode operand s)
    s.operandIn mode operand t = result.value ∧
      ∃ memory, t = use result.value {s with flags := result.flags, memory} := by
  cases h with
  | @modify _ _ v crossed p found place =>
    rcases Cpu.effectiveAddress_of_place place with ⟨ha, -⟩ | ⟨l, rfl, -⟩
    · exact absurd ha hm
    · rw [Cpu.operandIn_of_readOperand found]
      refine ⟨?_, _, rfl⟩
      simp only [Cpu.operandIn, place, (hq _ _).1]
      exact Memory.read_write_self _ _ _

theorem of_done_modify_accumulator {op : Flags → Byte → Alu.Result} {use : Byte → Cpu → Cpu}
    (h : Done .accumulator operand s (.modify op use) t) :
    let result := op s.flags s.registers.a
    t = use result.value {s with flags := result.flags, registers.a := result.value} := by
  cases h with
  | modify found place =>
    cases found
    cases place
    rfl

end Access

/-! ### Instructions -/

namespace Cpu

theorem branch_eq (condition : Flags → Bool) (operand : Word) (s : Cpu) :
    ∃ cycles pc, branch condition operand s = {s.charge cycles with registers.pc := pc} := by
  unfold branch
  split
  · exact ⟨_, _, rfl⟩
  · exact ⟨0, s.registers.pc, by rw [charge_zero]⟩

end Cpu

namespace Family
variable {f : Family} {mode : AddressingMode} {operand : Word} {s t : Cpu}

/-- An instruction keeps the parts it does not change, and zero and negative show its result. -/
structure Framed (f : Family) (mode : AddressingMode) (operand : Word) (s t : Cpu) : Prop where
  same : ∀ part, f.changes mode part = false → part.Same s t
  shown : (f.shown s t (s.operandIn mode operand s) (s.operandIn mode operand t)).In s.flags t.flags

theorem framed_direct {run : Word → Cpu → Cpu} (h : f.effect = .direct run)
    (mode : AddressingMode) (operand : Word) (s : Cpu) :
    f.Framed mode operand s (run operand s) := by
  constructor
  case same =>
    intro part hp
    cases f <;> cases h
    case bcc | bcs | beq | bne | bmi | bpl | bvc | bvs =>
      obtain ⟨cycles, pc, hb⟩ := Cpu.branch_eq _ operand s
      rw [hb]
      cases part <;> first | rfl | cases hp
    all_goals cases part <;> first | rfl | cases hp
  case shown =>
    cases f <;> cases h
    case bcc | bcs | beq | bne | bmi | bpl | bvc | bvs =>
      obtain ⟨cycles, pc, hb⟩ := Cpu.branch_eq _ operand s
      rw [hb]
      exact ⟨rfl, rfl⟩
    case rti =>
      have hsp : s.registers.sp + 3 = s.registers.sp + 1 + 1 + 1 := by bv_omega
      show (Shown.status (s.memory.read (Stack.slot (s.registers.sp + 3)))).In _ _
      rw [hsp]
      exact ⟨rfl, rfl⟩
    all_goals exact ⟨rfl, rfl⟩

/-- The families that may shift the accumulator. -/
def shifts : List Family := [asl, lsr, rol, ror]

theorem mem_shifts_of_accumulator {e : Encoding} (he : e ∈ f.encodings)
    (hm : e.mode = .accumulator) : f ∈ shifts := by
  revert e
  cases f <;> decide

/-- A sum or difference put into the accumulator leaves all but it, carry and overflow. -/
theorem same_accumulate {u : Cpu} {r : Alu.Result} {b : Byte} (hr : r.Shows s.flags b)
    (hu : u.registers = s.registers) (mode : AddressingMode) {part : Part}
    (hp : adc.changes mode part = false) : part.Same s (u.accumulate r) := by
  cases part with
  | a | carry | overflow => cases hp
  | interruptDisable => exact hr.interruptDisable
  | decimal => exact hr.decimal
  | breakCommand => exact hr.breakCommand
  | x | y | sp | pc => simp only [Part.Same, Cpu.accumulate, hu]

theorem framed_read {pays : Bool} {use : Byte → Cpu → Cpu}
    (h : f.effect = .through (.read pays use)) (done : Access.Done mode operand s (.read pays use) t) :
    f.Framed mode operand s t := by
  obtain ⟨cycles, rfl⟩ := Access.of_done_read done
  have hadd := Alu.shows_add s.flags s.registers.a (s.operandIn mode operand s)
  have hsubtract := Alu.shows_subtract s.flags s.registers.a (s.operandIn mode operand s)
  constructor
  case same =>
    intro part hp
    cases f <;> cases h
    case adc => exact same_accumulate hadd rfl mode hp
    case sbc => exact same_accumulate hsubtract rfl mode hp
    all_goals cases part <;> first | rfl | cases hp
  case shown =>
    cases f <;> cases h
    case adc => exact hadd.shown
    case sbc => exact hsubtract.shown
    all_goals exact ⟨rfl, rfl⟩

theorem framed_modify {op : Flags → Byte → Alu.Result} {use : Byte → Cpu → Cpu}
    (h : f.effect = .through (.modify op use))
    (done : Access.Done mode operand s (.modify op use) t) (hm : mode ≠ .accumulator) :
    f.Framed mode operand s t := by
  obtain ⟨hnew, memory, rfl⟩ := Access.of_done_modify done (quiet_of_through h) hm
  let result := op s.flags (s.operandIn mode operand s)
  have hadd := Alu.shows_add result.flags s.registers.a result.value
  have hsubtract := Alu.shows_subtract result.flags s.registers.a result.value
  constructor
  case same =>
    intro part hp
    cases f <;> cases h
    case rra =>
      have hs : Alu.Result.Shows _ s.flags _ :=
        ⟨hadd.shown, hadd.interruptDisable, hadd.decimal, hadd.breakCommand⟩
      exact same_accumulate hs rfl mode hp
    case isc =>
      have hs : Alu.Result.Shows _ s.flags _ :=
        ⟨hsubtract.shown, hsubtract.interruptDisable, hsubtract.decimal, hsubtract.breakCommand⟩
      exact same_accumulate hs rfl mode hp
    all_goals cases part <;> first | rfl | cases hp
  case shown =>
    rw [hnew]
    cases f <;> cases h
    case rra => exact hadd.shown
    case isc => exact hsubtract.shown
    all_goals exact ⟨rfl, rfl⟩

/-- A shift of the accumulator has it for its operand before and after. -/
theorem framed_accumulator {op : Flags → Byte → Alu.Result} {use : Byte → Cpu → Cpu}
    (h : f.effect = .through (.modify op use)) (hf : f ∈ shifts)
    (done : Access.Done .accumulator operand s (.modify op use) t) :
    f.Framed .accumulator operand s t := by
  rw [Access.of_done_modify_accumulator done]
  simp only [shifts, List.mem_cons, List.not_mem_nil, or_false] at hf
  constructor
  case same =>
    intro part hp
    rcases hf with rfl | rfl | rfl | rfl <;> cases h <;> cases part <;> first | rfl | cases hp
  case shown =>
    rcases hf with rfl | rfl | rfl | rfl <;> cases h <;> exact ⟨rfl, rfl⟩

/-- The stores are to memory. -/
theorem framed_store {value : Registers → Byte} (h : f.effect = .through (.store value))
    (done : Access.Done mode operand s (.store value) t) (hm : mode ≠ .accumulator) :
    f.Framed mode operand s t := by
  obtain ⟨memory, rfl⟩ := Access.of_done_store done hm
  constructor
  case same =>
    intro part hp
    cases part <;> rfl
  case shown => cases f <;> cases h <;> exact ⟨rfl, rfl⟩

theorem framed_storeMasked {value : Registers → Byte} {registers : Registers → Registers}
    (h : f.effect = .through (.storeMasked value registers))
    (done : Access.Done mode operand s (.storeMasked value registers) t) :
    f.Framed mode operand s t := by
  cases done with
  | storeMasked found =>
    constructor
    case same =>
      intro part hp
      cases f <;> cases h <;> cases part <;> first | rfl | cases hp
    case shown => cases f <;> cases h <;> exact ⟨rfl, rfl⟩

theorem framed_through {access : Access} (h : f.effect = .through access) {e : Encoding}
    (he : e ∈ f.encodings) (done : access.Done e.mode operand s t) :
    f.Framed e.mode operand s t := by
  cases access with
  | read pays use => exact framed_read h done
  | modify op use =>
    by_cases hm : e.mode = .accumulator
    · rw [hm] at done ⊢
      exact framed_accumulator h (mem_shifts_of_accumulator he hm) done
    · exact framed_modify h done hm
  | store value =>
    have hf : f ∉ shifts := by cases f <;> first | decide | cases h
    exact framed_store h done fun hm => hf (mem_shifts_of_accumulator he hm)
  | storeMasked value registers => exact framed_storeMasked h done
  | jump =>
    obtain rfl : f = jmp := by cases f <;> first | rfl | cases h
    cases done with
    | jump found =>
      refine ⟨fun part hp => ?_, rfl, rfl⟩
      cases part <;> first | rfl | cases hp
  | idle =>
    obtain rfl : f = nop := by cases f <;> first | rfl | cases h
    obtain ⟨cycles, rfl⟩ := Access.of_done_idle done
    refine ⟨fun part _ => ?_, rfl, rfl⟩
    cases part <;> rfl

theorem framed {e : Encoding} (he : f.encoding? s.opcode = some e)
    (h : f.execute operand s = .ok () t) : f.Framed e.mode operand s t := by
  cases executed h with
  | direct run effect eq =>
    rw [eq]
    exact framed_direct effect e.mode operand s
  | through access e' effect declared done =>
    obtain rfl : e = e' := Option.some.inj (he.symm.trans declared)
    exact framed_through effect (List.mem_of_find?_eq_some he) done

/-- The families that put a sum or a difference into the accumulator. -/
def sums : List Family := [adc, sbc, rra, isc]

/-- Without packed digits a sum shows the byte it leaves. -/
theorem shown_of_mem_sums {e : Encoding} (hf : f ∈ sums) (he : f.encoding? s.opcode = some e)
    (h : f.execute operand s = .ok () t) (hd : s.flags.decimal = false) :
    f.shown s t (s.operandIn e.mode operand s) (s.operandIn e.mode operand t) =
      .result t.registers.a := by
  have hm (hs : f ∉ shifts) : e.mode ≠ .accumulator := fun hm =>
    hs (mem_shifts_of_accumulator (List.mem_of_find?_eq_some he) hm)
  simp only [sums, List.mem_cons, List.not_mem_nil, or_false] at hf
  rcases hf with rfl | rfl | rfl | rfl
  · obtain ⟨cycles, rfl⟩ := Access.of_done_read (done_of_execute rfl he h)
    exact congrArg Shown.result (Alu.value_add hd _ _).symm
  · obtain ⟨cycles, rfl⟩ := Access.of_done_read (done_of_execute rfl he h)
    exact congrArg Shown.result (Alu.value_subtract hd _ _).symm
  · obtain ⟨hnew, memory, rfl⟩ := Access.of_done_modify (done_of_execute rfl he h)
      (quiet_of_through (f := rra) rfl) (hm (by decide))
    let rotated := Alu.rotateRight s.flags (s.operandIn e.mode operand s)
    have hd' : rotated.flags.decimal = false := hd
    rw [hnew]
    exact congrArg Shown.result (Alu.value_add hd' s.registers.a rotated.value).symm
  · obtain ⟨hnew, memory, rfl⟩ := Access.of_done_modify (done_of_execute rfl he h)
      (quiet_of_through (f := isc) rfl) (hm (by decide))
    let incremented := Alu.increment s.flags (s.operandIn e.mode operand s)
    have hd' : incremented.flags.decimal = false := hd
    rw [hnew]
    exact congrArg Shown.result (Alu.value_subtract hd' s.registers.a incremented.value).symm

/-- **What an instruction may change and what zero and negative show after it**, for every opcode
that is declared. It keeps the registers and flags that its family is not listed for, and zero
and negative too unless they show its result; that result is the byte it leaves, also for a sum
or difference when it is not of packed digits. The requests, the cycle counter and the opcode on
record stay as they are, but for the request that a break raises. -/
theorem execute_frame {e : Encoding} (h : Encoding.ofOpcode? s.opcode = some e) (operand : Word) :
    ∃ t, e.family.execute operand s = .ok () t ∧ e.family.Framed e.mode operand s t ∧
      (e.family ∈ sums → s.flags.decimal = false →
        e.family.shown s t (s.operandIn e.mode operand s) (s.operandIn e.mode operand t) =
          .result t.registers.a) ∧
      t.hardwareRequest = s.hardwareRequest ∧
      t.softwareRequest = (e.family == .brk || s.softwareRequest) ∧
      t.totalCycles = s.totalCycles ∧ t.opcode = s.opcode := by
  have he := Encoding.encoding?_of_ofOpcode? h
  obtain ⟨t, ht, -⟩ := execute_spec he operand
  have hl := ledger_execute he ht
  exact ⟨t, ht, framed he ht, fun hf => shown_of_mem_sums hf he ht,
    congrArg Ledger.hardwareRequest hl, congrArg Ledger.softwareRequest hl,
    congrArg Ledger.totalCycles hl, opcode_execute ht⟩

/-- Ninety-nine in packed digits and a carry, before an immediate sum. -/
def packedNines : Cpu :=
  {Cpu.powerOn .zero with
    registers := ⟨0x99, 0x12, 0x34, 0xFF, 0x0602⟩
    flags := {Flags.clear with carry := true, decimal := true}
    opcode := 0x69}

/-- The binary sum wraps to zero, and zero is set although the accumulator holds digits. -/
theorem packedNines_sum : ∃ t, adc.execute 0x0066 packedNines = .ok () t ∧
    t.registers.a = 0x66 ∧ t.registers.x = 0x12 ∧ t.flags.decimal = true ∧
    t.flags.zero = true ∧ t.flags.negative = false := by
  have he : Encoding.ofOpcode? packedNines.opcode = some (adc.official 0x69 .immediate 2) := by
    decide +kernel
  obtain ⟨t, ht, hframed, -⟩ := execute_frame he 0x0066
  have ha : t.registers.a = 0x66 := by
    cases ht
    decide
  have hsum : (Shown.result (Alu.sum true 0x99 0x66)).In packedNines.flags t.flags := hframed.shown
  exact ⟨t, ht, ha, hframed.same .x rfl, hframed.same .decimal rfl,
    hsum.1.trans (by decide), hsum.2.trans (by decide)⟩

end Family

/-! ### Cycles -/

/-- The parts that no service of an interrupt and no fetch changes. -/
def Part.steady : Part → Bool
  | a | x | y | carry | decimal | overflow => true
  | sp | pc | interruptDisable | breakCommand => false

theorem Part.Same.refl (part : Part) (s : Cpu) : part.Same s s := by
  cases part <;> rfl

theorem Part.Same.trans {part : Part} {s t u : Cpu} (h : part.Same s t) (h' : part.Same t u) :
    part.Same s u := by
  cases part <;> exact Eq.trans h' h

theorem Part.Same.charge {part : Part} {s t : Cpu} (h : part.Same s t) (cycles : Nat) :
    part.Same s (t.charge cycles) := by
  cases part <;> exact h

theorem Part.Same.tick {part : Part} {s t : Cpu} (h : part.Same s t) : part.Same s t.tick := by
  cases part <;> exact h

theorem Part.same_takeInterrupt {part : Part} (hs : part.steady = true) (s : Cpu) :
    part.Same s s.takeInterrupt := by
  unfold Cpu.takeInterrupt
  cases s.pendingInterrupt <;> cases part <;> first | rfl | cases hs

namespace Machine
variable {m : Machine} {part : Part}

theorem Begins.same {i : Instruction} {t : Cpu} (h : m.Begins i t) (hs : part.steady = true)
    (hp : i.encoding.family.changes i.encoding.mode part = false) : part.Same m.cpu t := by
  let served := m.cpu.takeInterrupt
  have hserved : part.Same m.cpu served := part.same_takeInterrupt hs m.cpu
  have htaken : part.Same served (i.take served) := by
    cases part <;> first | rfl | cases hs
  have hd : i.encoding.family.encoding? (i.take served).opcode = some i.encoding :=
    Instruction.encoding?_of_fetch h.fetch
  have hexecuted := (Family.framed hd (Cpu.execute_of_instruct h.fetch h.instruct)).same part hp
  exact (hserved.trans htaken).trans hexecuted

theorem same_cycle (hs : part.steady = true)
    (h : ∀ i t, m.Begins i t → i.encoding.family.changes i.encoding.mode part = false) :
    part.Same m.cpu m.cycle.2.cpu := by
  have hserved : part.Same m.cpu m.cpu.takeInterrupt := part.same_takeInterrupt hs m.cpu
  cases m.outcome with
  | failed failure eq | halted halted eq =>
    rw [eq]
    exact .refl part m.cpu
  | draining failure left eq =>
    rw [eq]
    exact (Part.Same.refl part m.cpu).tick
  | boundary boundary beginning =>
    cases beginning with
    | vectored halt eq =>
      rw [eq]
      exact hserved.tick
    | undeclared undecodable eq =>
      rw [eq]
      exact hserved
    | retired i t begins eq =>
      rw [eq]
      exact ((begins.same hs (h i t begins)).charge i.encoding.cycles).tick

/-- A steady part stays what it is until an instruction begins whose family may change it. -/
theorem same_after (hs : part.steady = true) {n : Nat}
    (h : ∀ k < n, ∀ i t, (m.after k).Begins i t →
      i.encoding.family.changes i.encoding.mode part = false) :
    part.Same m.cpu (m.after n).cpu := by
  induction n with
  | zero => exact .refl part m.cpu
  | succ n ih =>
    have hn : part.Same (m.after n).cpu (m.after n).cycle.2.cpu :=
      same_cycle hs (h n n.lt_succ_self)
    exact (ih fun k hk => h k (Nat.lt_succ_of_lt hk)).trans hn

end Machine

end Nmos6502
