import Nmos6502.Proofs.Cycle

/-! Cycles and instructions.

A boundary that finds a declared opcode does the whole instruction on its first cycle and
only spends cycles after that, so the machine `j` cycles in is known outright
(`Machine.during`): the state the instruction leaves, with what is left of its `cost`. The
cost is never zero and far from overflowing the count of cycles left. -/
namespace Nmos6502

/-! ### The bounds of a cost -/

theorem Family.cycles_of_mem_encodings {f : Family} {e : Encoding} (h : e ∈ f.encodings) :
    2 ≤ e.cycles ∧ e.cycles ≤ 8 := by
  revert e
  cases f <;> decide

theorem Family.penalty_le (f : Family) (mode : AddressingMode) (operand : Word) (s : Cpu) :
    f.penalty mode operand s ≤ 2 := by
  unfold penalty
  repeat' split
  all_goals omega

/-- No instruction takes more than eight cycles: none that is long pays a penalty. -/
theorem Family.cycles_add_penalty_le {f : Family} {e : Encoding} (h : e ∈ f.encodings)
    (mode : AddressingMode) (operand : Word) (s : Cpu) :
    e.cycles + f.penalty mode operand s ≤ 8 := by
  obtain ⟨-, hc⟩ := cycles_of_mem_encodings h
  have hp : f.penalty mode operand s ≤ 2 := f.penalty_le mode operand s
  have hlong : e.cycles ≤ 6 ∨ f.penalty mode operand s = 0 := by
    revert e
    cases f
    all_goals first
      | intro e h hc; exact .inl (by revert e; decide)
      | intro e h hc; exact .inr rfl
  omega

namespace Machine

/-- The cycles a boundary spends serving an interrupt. -/
def serviceCycles (m : Machine) : Nat :=
  if m.cpu.pendingInterrupt.isSome then Interrupt.cycles else 0

/-- The cycles a boundary and the instruction it begins take together. -/
def cost (m : Machine) (i : Instruction) : Nat :=
  m.serviceCycles + i.encoding.cycles + i.penalty m.cpu.takeInterrupt

/-- The machine so many cycles into an instruction begun at this boundary, which leaves a
state. -/
def during (m : Machine) (i : Instruction) (t : Cpu) (cycles : Nat) : Machine where
  cpu := {t with
    cyclesLeft := BitVec.ofNat 32 (m.cost i - cycles)
    totalCycles := m.cpu.totalCycles + BitVec.ofNat 64 cycles}
  current := some i
  failure := none

variable {m : Machine} {i : Instruction} {t : Cpu}

theorem serviceCycles_le (m : Machine) : m.serviceCycles ≤ 7 := by
  unfold serviceCycles
  split <;> decide

theorem Begins.cost_bounds (h : m.Begins i t) : 2 ≤ m.cost i ∧ m.cost i ≤ 15 := by
  have he : i.encoding ∈ i.encoding.family.encodings := Instruction.mem_encodings_of_fetch h.fetch
  have hl := (Family.cycles_of_mem_encodings he).1
  have hu : i.encoding.cycles + i.penalty m.cpu.takeInterrupt ≤ 8 :=
    Family.cycles_add_penalty_le he _ _ _
  have hs := m.serviceCycles_le
  unfold cost
  omega

theorem Begins.exists_cost_eq (h : m.Begins i t) : ∃ n, m.cost i = n + 1 :=
  Nat.exists_eq_add_one.mpr (Nat.lt_of_lt_of_le Nat.two_pos h.cost_bounds.1)

/-- Looking for interrupts leaves their service to be spent, and nothing else. -/
theorem AtBoundary.cyclesLeft_takeInterrupt (h : m.AtBoundary) :
    m.cpu.takeInterrupt.cyclesLeft = BitVec.ofNat 32 m.serviceCycles := by
  unfold serviceCycles
  cases hp : m.cpu.pendingInterrupt with
  | none =>
    rw [Cpu.takeInterrupt_of_none hp, h.cyclesLeft]
    rfl
  | some k =>
    rw [Cpu.takeInterrupt_of_some hp]
    rfl

/-! ### One instruction, cycle by cycle -/

theorem Begins.cycle_eq_during (h : m.Begins i t) : m.cycle = (true, m.during i t 1) := by
  have hs := Cpu.ledger_instruct h.fetch h.instruct
  obtain ⟨hl, hb⟩ := h.cost_bounds
  have hleft : (t.charge i.encoding.cycles).cyclesLeft = BitVec.ofNat 32 (m.cost i) := by
    have hc : t.cyclesLeft = m.cpu.takeInterrupt.cyclesLeft +
        BitVec.ofNat 32 (i.penalty m.cpu.takeInterrupt) := congrArg Ledger.cyclesLeft hs
    show t.cyclesLeft + BitVec.ofNat 32 i.encoding.cycles = _
    rw [hc, h.cyclesLeft_takeInterrupt]
    unfold cost
    bv_omega
  have htotal : (t.charge i.encoding.cycles).totalCycles = m.cpu.totalCycles := by
    have hc : t.totalCycles = m.cpu.takeInterrupt.totalCycles := congrArg Ledger.totalCycles hs
    exact hc.trans m.cpu.sameData_takeInterrupt.totalCycles
  have hpos : BitVec.ofNat 32 (m.cost i) ≠ 0 := by bv_omega
  have hone : BitVec.ofNat 32 (m.cost i) - 1 = BitVec.ofNat 32 (m.cost i - 1) := by bv_omega
  rw [h.cycle]
  unfold Cpu.tick
  rw [hleft, htotal, if_neg hpos, hone]
  rfl

theorem Begins.drained_during (h : m.Begins i t) (cycles : Nat) {n : Nat}
    (hn : cycles + n ≤ m.cost i) :
    (m.during i t cycles).drained n = m.during i t (cycles + n) := by
  obtain ⟨-, hb⟩ := h.cost_bounds
  have hleft : BitVec.ofNat 32 (m.cost i - cycles) - BitVec.ofNat 32 n =
      BitVec.ofNat 32 (m.cost i - (cycles + n)) := by bv_omega
  have htotal : m.cpu.totalCycles + BitVec.ofNat 64 cycles + BitVec.ofNat 64 n =
      m.cpu.totalCycles + BitVec.ofNat 64 (cycles + n) := by bv_omega
  unfold drained during
  simp only [hleft, htotal]

theorem Begins.cyclesLeft_during (h : m.Begins i t) (cycles : Nat) :
    (m.during i t cycles).cpu.cyclesLeft.toNat = m.cost i - cycles := by
  obtain ⟨-, hb⟩ := h.cost_bounds
  show (BitVec.ofNat 32 (m.cost i - cycles)).toNat = _
  rw [BitVec.toNat_ofNat, Nat.mod_eq_of_lt (by omega)]

/-- The whole of an instruction's cycles. -/
theorem Begins.after_eq_during (h : m.Begins i t) {n : Nat} (hn : n < m.cost i) :
    m.after (n + 1) = m.during i t (n + 1) := by
  have hleft : n ≤ (m.during i t 1).cpu.cyclesLeft.toNat := by
    rw [h.cyclesLeft_during]
    omega
  rw [after_succ, h.cycle_eq_during, after_draining rfl hleft, h.drained_during 1 (by omega),
    Nat.add_comm]

theorem Begins.cycle_after (h : m.Begins i t) {n : Nat} (hn : n < m.cost i) :
    (m.after n).cycle = (true, m.during i t (n + 1)) := by
  have hnext : (m.after n).cycle.2 = m.during i t (n + 1) := h.after_eq_during hn
  refine Prod.ext ?_ hnext
  cases n with
  | zero => exact congrArg Prod.fst h.cycle_eq_during
  | succ n =>
    have hmid : (m.during i t (n + 1)).cpu.cyclesLeft ≠ 0 := by
      intro hz
      have hleft := h.cyclesLeft_during (n + 1)
      rw [hz] at hleft
      have : 0 = m.cost i - (n + 1) := hleft
      omega
    rw [h.after_eq_during (Nat.lt_of_succ_lt hn), cycle_of_draining (phase_of_draining rfl hmid)]

theorem Begins.after_cost (h : m.Begins i t) : m.after (m.cost i) = m.during i t (m.cost i) := by
  obtain ⟨n, hn⟩ := h.exists_cost_eq
  rw [hn]
  exact h.after_eq_during (hn ▸ Nat.lt_succ_self n)

/-- A hardware request before a load at the vector's target, whose index leaves the page. -/
def interruptedLoad : Machine :=
  ⟨{Cpu.powerOn (Memory.zero.writeBytes 0 [0xBD, 0xFF, 0x00]) with
    registers := ⟨0, 1, 0, 0xFF, 0x0200⟩
    hardwareRequest := true}, none, none⟩

/-- The vector leads to the bottom of memory. -/
theorem interruptedLoad_pc : interruptedLoad.cpu.takeInterrupt.registers.pc = 0 := by
  rw [Cpu.pc_takeInterrupt_of_some (k := .hardware) rfl]
  simp [interruptedLoad, Cpu.powerOn, Memory.readWord, Memory.writeBytes, Memory.read_write,
    Interrupt.vector]
  decide

theorem interruptedLoad_fetch : interruptedLoad.cpu.takeInterrupt.fetch =
    .ok ⟨0, ⟨0xBD, .lda, .absoluteX, 4, true⟩, 0x00FF⟩ := by
  unfold Cpu.fetch
  rw [interruptedLoad_pc]
  exact Instruction.fetch_eq_ok_iff.mpr ⟨by decide, rfl, by decide⟩

end Machine

end Nmos6502
