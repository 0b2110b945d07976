import Nmos6502.Machine
import Nmos6502.Proofs.Execution

/-! What a cycle does, said once.

`Cpu.instruct` is an instruction in one step: fetched, passed by, recorded and executed,
with no cycle counted. A cycle that begins an instruction leaves what that step leaves and
charges the base cycles on top (`instruct_spec`), because execution does not read the
ledger. So a cycle has six outcomes and no others (`Machine.outcome`), three of them at a
boundary (`AtBoundary.beginning`), and what holds of every cycle is read off them. -/
namespace Nmos6502

/-! ### An instruction in one step -/

namespace Instruction

/-- Pass the instruction by and record its opcode. -/
def take (i : Instruction) (s : Cpu) : Cpu :=
  {s with
    registers.pc := i.next
    opcode := i.encoding.opcode}

/-- The cycles beyond the base that the instruction costs when begun in a state. -/
def penalty (i : Instruction) (s : Cpu) : Nat :=
  i.encoding.family.penalty i.encoding.mode i.operand (i.take s)

theorem begin_eq (i : Instruction) (s : Cpu) :
    i.begin s = (i.take s).withLedger (s.ledger.charge i.encoding.cycles) := rfl

theorem fetch_eq_error_iff {m : Memory} {address : Word} {fault : Fault} :
    fetch m address = .error fault ↔
      (∀ f : Family, f.declares (m.read address) = false) ∧
        fault = .unknownOpcode (m.read address) := by
  have hnone : Encoding.ofOpcode? (m.read address) = none ↔
      ∀ f : Family, f.declares (m.read address) = false := by
    rw [← Option.not_isSome_iff_eq_none, Encoding.isSome_ofOpcode?_iff]
    simp
  rw [← hnone]
  unfold fetch
  split <;> rename_i h
  · simp [h, eq_comm]
  · simp [h]

end Instruction

namespace Cpu

/-- The instruction at the program counter, done at once. -/
def instruct (s : Cpu) : Except Fault Cpu :=
  match s.fetch with
  | .error fault => .error fault
  | .ok i =>
    match i.execute (i.take s) with
    | .error fault _ => .error fault
    | .ok () t => .ok t

/-- What is fetched is carried out, and enters its penalty in the ledger. Begun with its
base cycles charged, it leaves the same state with them charged. -/
theorem instruct_spec {s : Cpu} {i : Instruction} (h : s.fetch = .ok i) :
    ∃ t, s.instruct = .ok t ∧ t.ledger = s.ledger.settle i.encoding.family (i.penalty s) ∧
      i.execute (i.begin s) = .ok () (t.charge i.encoding.cycles) := by
  have hd : i.encoding.family.encoding? (i.take s).opcode = some i.encoding :=
    Instruction.encoding?_of_fetch h
  obtain ⟨t, ht, hl⟩ := Family.execute_spec hd i.operand
  have hi : i.execute (i.take s) = .ok () t := ht
  have hs : t.ledger = s.ledger.settle i.encoding.family (i.penalty s) :=
    Family.ledger_execute hd ht
  refine ⟨t, by simp only [instruct, h, hi], hs, ?_⟩
  rw [Instruction.begin_eq, charge_eq, hs, ← Ledger.settle_charge]
  exact hl _

/-- The ledger of the state an instruction leaves. -/
theorem ledger_instruct {s t : Cpu} {i : Instruction} (hi : s.fetch = .ok i)
    (ht : s.instruct = .ok t) :
    t.ledger = s.ledger.settle i.encoding.family (i.penalty s) := by
  obtain ⟨u, hu, hs, -⟩ := instruct_spec hi
  obtain rfl : u = t := Except.ok.inj (hu.symm.trans ht)
  exact hs

/-- On another ledger the instruction does the same to everything else. -/
theorem instruct_withLedger {s t : Cpu} {i : Instruction} (hi : s.fetch = .ok i)
    (ht : s.instruct = .ok t) (l : Ledger) :
    (s.withLedger l).instruct =
      .ok (t.withLedger (l.settle i.encoding.family (i.penalty s))) := by
  have hd : i.encoding.family.encoding? (i.take s).opcode = some i.encoding :=
    Instruction.encoding?_of_fetch hi
  have hfetch : (s.withLedger l).fetch = .ok i := hi
  obtain ⟨u, hu, hl⟩ := Family.execute_spec hd i.operand
  have hi' : i.execute (i.take s) = .ok () u := hu
  have hl' : i.execute (i.take (s.withLedger l)) =
      .ok () (u.withLedger (l.settle i.encoding.family (i.penalty s))) := hl l
  simp only [instruct, hi, hi', Except.ok.injEq] at ht
  subst ht
  simp only [instruct, hfetch, hl']

theorem fetch_or_undeclared (s : Cpu) :
    (∃ i, s.fetch = .ok i) ∨
      (∀ f : Family, f.declares (s.memory.read s.registers.pc) = false) ∧
        s.fetch = .error (.unknownOpcode (s.memory.read s.registers.pc)) := by
  cases h : s.fetch with
  | ok i => exact .inl ⟨i, rfl⟩
  | error fault =>
    obtain ⟨hd, rfl⟩ := Instruction.fetch_eq_error_iff.mp h
    exact .inr ⟨hd, rfl⟩

theorem toNat_cyclesLeft_tick (s : Cpu) :
    s.tick.cyclesLeft.toNat = s.cyclesLeft.toNat - 1 := by
  show (if s.cyclesLeft = 0 then 0 else s.cyclesLeft - 1).toNat = _
  split <;> bv_omega

/-! ### Looking for interrupts -/

/-- What no service of an interrupt touches. -/
structure SameData (s t : Cpu) : Prop where
  totalCycles : t.totalCycles = s.totalCycles
  opcode : t.opcode = s.opcode
  a : t.registers.a = s.registers.a
  x : t.registers.x = s.registers.x
  y : t.registers.y = s.registers.y

theorem sameData_takeInterrupt (s : Cpu) : s.SameData s.takeInterrupt := by
  unfold takeInterrupt
  cases s.pendingInterrupt <;> exact ⟨rfl, rfl, rfl, rfl, rfl⟩

theorem takeInterrupt_of_none {s : Cpu} (h : s.pendingInterrupt = none) : s.takeInterrupt = s := by
  simp only [takeInterrupt, h]

theorem takeInterrupt_of_some {s : Cpu} {k : Interrupt} (h : s.pendingInterrupt = some k) :
    s.takeInterrupt = {s.enter k with hardwareRequest := false, softwareRequest := false} := by
  simp only [takeInterrupt, h]

/-- The frame stays clear of the vectors: the handler is the one in memory before it. -/
theorem pc_enter (k : Interrupt) (s : Cpu) :
    (s.enter k).registers.pc = s.memory.readWord k.vector := by
  have hlow (p : Byte) : Stack.slot p ≠ k.vector := by
    revert p
    cases k <;> decide
  have hhigh (p : Byte) : Stack.slot p ≠ k.vector + 1 := by
    revert p
    cases k <;> decide
  simp only [enter, push, pushWord, withStack, stack, Stack.push, Stack.pushWord, Memory.readWord,
    Memory.read_write, if_neg (hlow _), if_neg (hhigh _)]

theorem pc_takeInterrupt_of_some {s : Cpu} {k : Interrupt} (h : s.pendingInterrupt = some k) :
    s.takeInterrupt.registers.pc = s.memory.readWord k.vector := by
  rw [takeInterrupt_of_some h]
  exact pc_enter k s

theorem cyclesLeft_takeInterrupt_of_some {s : Cpu} {k : Interrupt}
    (h : s.pendingInterrupt = some k) : s.takeInterrupt.cyclesLeft = 7 := by
  rw [takeInterrupt_of_some h]
  rfl

end Cpu

namespace Machine

/-! ### The phases -/

/-- The machine looks for interrupts and begins an instruction on its next cycle. -/
structure AtBoundary (m : Machine) : Prop where
  failure : m.failure = none
  cyclesLeft : m.cpu.cyclesLeft = 0
  running : m.cpu.registers.pc ≠ Cpu.haltAddress

/-- The program is over. -/
structure Halted (m : Machine) : Prop where
  failure : m.failure = none
  cyclesLeft : m.cpu.cyclesLeft = 0
  halted : m.cpu.registers.pc = Cpu.haltAddress

/-- A boundary at which no family declares the byte to be fetched. -/
structure Undecodable (m : Machine) : Prop extends AtBoundary m where
  vectored : m.cpu.takeInterrupt.registers.pc ≠ Cpu.haltAddress
  undeclared : ∀ f : Family,
    f.declares (m.cpu.takeInterrupt.memory.read m.cpu.takeInterrupt.registers.pc) = false

/-- A boundary that begins an instruction, which leaves a state but for the cycles. -/
structure Begins (m : Machine) (i : Instruction) (t : Cpu) : Prop extends AtBoundary m where
  vectored : m.cpu.takeInterrupt.registers.pc ≠ Cpu.haltAddress
  fetch : m.cpu.takeInterrupt.fetch = .ok i
  instruct : m.cpu.takeInterrupt.instruct = .ok t

/-- The machine with its interrupt served and the failure to fetch after it stored. -/
def stalled (m : Machine) : Machine :=
  ⟨m.cpu.takeInterrupt, none, some ⟨m.cpu.takeInterrupt.registers.pc,
    .unknownOpcode (m.cpu.takeInterrupt.memory.read m.cpu.takeInterrupt.registers.pc)⟩⟩

theorem phase_of_failed {m : Machine} (h : m.failure ≠ none) : m.phase = .failed := by
  simp [phase, Option.isSome_iff_ne_none.mpr h]

theorem phase_of_draining {m : Machine} (hf : m.failure = none) (hc : m.cpu.cyclesLeft ≠ 0) :
    m.phase = .draining := by
  have hm : m.cpu.isMidInstruction = true := bne_iff_ne.mpr hc
  simp [phase, hf, hm]

theorem AtBoundary.phase {m : Machine} (h : m.AtBoundary) : m.phase = .boundary := by
  simp [Machine.phase, Cpu.isMidInstruction, Cpu.isRunning, h.failure, h.cyclesLeft, h.running]

theorem Halted.phase {m : Machine} (h : m.Halted) : m.phase = .halted := by
  simp [Machine.phase, Cpu.isMidInstruction, Cpu.isRunning, h.failure, h.cyclesLeft, h.halted]

/-! ### The six outcomes -/

/-- What a cycle at a boundary finds and what it leaves. -/
inductive Beginning (m : Machine) : Prop where
  /-- An interrupt led to the halt address. -/
  | vectored (halt : m.cpu.takeInterrupt.registers.pc = Cpu.haltAddress)
      (eq : m.cycle = (true, ⟨m.cpu.takeInterrupt.tick, none, none⟩))
  | undeclared (undecodable : m.Undecodable) (eq : m.cycle = (false, m.stalled))
  | retired (i : Instruction) (t : Cpu) (begins : m.Begins i t)
      (eq : m.cycle = (true, ⟨(t.charge i.encoding.cycles).tick, some i, none⟩))

/-- What a cycle finds and what it leaves. -/
inductive Outcome (m : Machine) : Prop where
  | failed (failure : m.failure ≠ none) (eq : m.cycle = (false, m))
  | draining (failure : m.failure = none) (left : m.cpu.cyclesLeft ≠ 0)
      (eq : m.cycle = (true, m.tick))
  | halted (halted : m.Halted) (eq : m.cycle = (false, m))
  | boundary (boundary : m.AtBoundary) (beginning : m.Beginning)

theorem AtBoundary.cycle {m n : Machine} (h : m.AtBoundary) (hb : m.begin = n) :
    m.cycle = if n.failure.isSome then (false, n) else (true, n.tick) := by
  rw [cycle_of_boundary h.phase, hb]

theorem Begins.cycle {m : Machine} {i : Instruction} {t : Cpu} (h : m.Begins i t) :
    m.cycle = (true, ⟨(t.charge i.encoding.cycles).tick, some i, none⟩) := by
  obtain ⟨u, hu, -, hx⟩ := Cpu.instruct_spec h.fetch
  obtain rfl : u = t := Except.ok.inj (hu.symm.trans h.instruct)
  have hb : m.begin = ⟨u.charge i.encoding.cycles, some i, none⟩ := by
    simp [begin, Cpu.isRunning, h.vectored, h.fetch, hx]
  exact h.toAtBoundary.cycle hb

theorem Undecodable.fetch {m : Machine} (h : m.Undecodable) :
    m.cpu.takeInterrupt.fetch = .error
      (.unknownOpcode (m.cpu.takeInterrupt.memory.read m.cpu.takeInterrupt.registers.pc)) :=
  Instruction.fetch_eq_error_iff.mpr ⟨h.undeclared, rfl⟩

theorem Undecodable.cycle {m : Machine} (h : m.Undecodable) : m.cycle = (false, m.stalled) := by
  have hb : m.begin = m.stalled := by
    simp [begin, stalled, Cpu.isRunning, h.vectored, h.fetch]
  exact h.toAtBoundary.cycle hb

theorem AtBoundary.beginning {m : Machine} (h : m.AtBoundary) : m.Beginning := by
  by_cases hs : m.cpu.takeInterrupt.registers.pc = Cpu.haltAddress
  · have hb : m.begin = ⟨m.cpu.takeInterrupt, none, none⟩ := by
      simp [begin, Cpu.isRunning, hs]
    exact .vectored hs (h.cycle hb)
  · rcases m.cpu.takeInterrupt.fetch_or_undeclared with ⟨i, hi⟩ | ⟨hd, -⟩
    · obtain ⟨t, ht, -⟩ := Cpu.instruct_spec hi
      have hb : m.Begins i t := {h with vectored := hs, fetch := hi, instruct := ht}
      exact .retired i t hb hb.cycle
    · have hu : m.Undecodable := {h with vectored := hs, undeclared := hd}
      exact .undeclared hu hu.cycle

theorem outcome (m : Machine) : m.Outcome := by
  by_cases hf : m.failure = none
  · by_cases hc : m.cpu.cyclesLeft = 0
    · by_cases hp : m.cpu.registers.pc = Cpu.haltAddress
      · have h : m.Halted := ⟨hf, hc, hp⟩
        exact .halted h (cycle_of_halted h.phase)
      · have h : m.AtBoundary := ⟨hf, hc, hp⟩
        exact .boundary h h.beginning
    · exact .draining hf hc (cycle_of_draining (phase_of_draining hf hc))
  · exact .failed hf (cycle_of_failed (phase_of_failed hf))

/-! ### Cycle after cycle -/

/-- The machine after so many cycles. -/
def after (m : Machine) : Nat → Machine
  | 0 => m
  | n + 1 => (m.after n).cycle.2

theorem after_succ (m : Machine) (n : Nat) : m.after (n + 1) = m.cycle.2.after n := by
  induction n with
  | zero => rfl
  | succ n ih => exact congrArg (fun m => m.cycle.2) ih

theorem after_add (m : Machine) (a b : Nat) : m.after (a + b) = (m.after a).after b := by
  induction b with
  | zero => rfl
  | succ b ih => exact congrArg (fun m => m.cycle.2) ih

/-- The machine with so many of its cycles spent. -/
def drained (m : Machine) (n : Nat) : Machine :=
  {m with
    cpu.cyclesLeft := m.cpu.cyclesLeft - BitVec.ofNat 32 n
    cpu.totalCycles := m.cpu.totalCycles + BitVec.ofNat 64 n}

theorem cycle_drained {m : Machine} (hf : m.failure = none) {n : Nat}
    (hn : n < m.cpu.cyclesLeft.toNat) : (m.drained n).cycle = (true, m.drained (n + 1)) := by
  have hleft : m.cpu.cyclesLeft - BitVec.ofNat 32 n ≠ 0 := by bv_omega
  have hone : m.cpu.cyclesLeft - BitVec.ofNat 32 n - 1 =
      m.cpu.cyclesLeft - BitVec.ofNat 32 (n + 1) := by bv_omega
  have htotal : m.cpu.totalCycles + BitVec.ofNat 64 n + 1 =
      m.cpu.totalCycles + BitVec.ofNat 64 (n + 1) := by bv_omega
  rw [cycle_of_draining (phase_of_draining (m := m.drained n) hf hleft)]
  simp only [drained, tick, Cpu.tick, if_neg hleft, hone, htotal]

/-- While cycles are left, a cycle spends one of them and does nothing else. -/
theorem after_draining {m : Machine} (hf : m.failure = none) {n : Nat}
    (hn : n ≤ m.cpu.cyclesLeft.toNat) : m.after n = m.drained n := by
  induction n with
  | zero => simp [after, drained]
  | succ n ih =>
    show (m.after n).cycle.2 = _
    rw [ih (by omega), cycle_drained hf (by omega)]

end Machine

end Nmos6502
