import Nmos6502.Proofs.Run

/-! Serving an interrupt by hand.

`Machine.takeInterrupt` does at a boundary what its next cycle would begin with, so the machine
may be told to or left to itself. Left to itself it serves the interrupt and carries out the
handler's first instruction on one cycle and then spends the cycles of both; told to, it first
spends the seven of the service and comes to the handler with none left (`Machine.entered`).
Nothing is pending there any more, for a service leaves no request behind, and the instruction
does not read the ledger, which is all that the spent cycles changed. So both machines meet on
the last cycle of the instruction (`Machine.forced_service`). -/
namespace Nmos6502

namespace Cpu

/-- A service leaves nothing to be served. -/
@[simp] theorem pendingInterrupt_takeInterrupt (s : Cpu) :
    s.takeInterrupt.pendingInterrupt = none := by
  cases hp : s.pendingInterrupt with
  | none =>
    rw [takeInterrupt_of_none hp]
    exact hp
  | some k =>
    rw [takeInterrupt_of_some hp]
    rfl

@[simp] theorem takeInterrupt_takeInterrupt (s : Cpu) :
    s.takeInterrupt.takeInterrupt = s.takeInterrupt :=
  takeInterrupt_of_none s.pendingInterrupt_takeInterrupt

end Cpu

namespace Machine
variable {m : Machine} {i : Instruction} {t : Cpu} {k : Interrupt}

/-! ### At the handler -/

/-- The machine with its interrupt served and the cycles of the service spent. -/
def entered (m : Machine) : Machine :=
  {m with cpu := {m.cpu.takeInterrupt with
    cyclesLeft := 0
    totalCycles := m.cpu.totalCycles + 7}}

/-- What the spent cycles changed is in the ledger. -/
theorem cpu_entered (m : Machine) : m.entered.cpu = m.cpu.takeInterrupt.withLedger
    {m.cpu.takeInterrupt.ledger with
      cyclesLeft := 0
      totalCycles := m.cpu.totalCycles + 7} := rfl

theorem pendingInterrupt_entered (m : Machine) : m.entered.cpu.pendingInterrupt = none :=
  m.cpu.pendingInterrupt_takeInterrupt

theorem takeInterrupt_entered (m : Machine) : m.entered.cpu.takeInterrupt = m.entered.cpu :=
  Cpu.takeInterrupt_of_none m.pendingInterrupt_entered

theorem drained_takeInterrupt (hp : m.cpu.pendingInterrupt = some k) :
    m.takeInterrupt.drained 7 = m.entered := by
  unfold drained entered takeInterrupt
  simp only [Cpu.cyclesLeft_takeInterrupt_of_some hp, m.cpu.sameData_takeInterrupt.totalCycles]
  rfl

/-- Forced, the machine comes to the handler by spending the cycles of the service. -/
theorem after_takeInterrupt (hf : m.failure = none) (hp : m.cpu.pendingInterrupt = some k) :
    m.takeInterrupt.Advances 7 ∧ m.takeInterrupt.after 7 = m.entered := by
  have hleft : 7 ≤ m.takeInterrupt.cpu.cyclesLeft.toNat := by
    show 7 ≤ m.cpu.takeInterrupt.cyclesLeft.toNat
    rw [Cpu.cyclesLeft_takeInterrupt_of_some hp]
    decide
  refine ⟨advances_draining hf hleft, ?_⟩
  rw [after_draining (m := m.takeInterrupt) hf hleft, drained_takeInterrupt hp]

/-! ### A handler that begins with an instruction -/

theorem cost_of_pending (hp : m.cpu.pendingInterrupt = some k) (i : Instruction) :
    m.cost i = 7 + (i.encoding.cycles + i.penalty m.cpu.takeInterrupt) := by
  unfold cost serviceCycles
  rw [hp, Nat.add_assoc]
  rfl

theorem cost_entered (m : Machine) (i : Instruction) :
    m.entered.cost i = i.encoding.cycles + i.penalty m.cpu.takeInterrupt := by
  unfold cost serviceCycles
  rw [pendingInterrupt_entered, takeInterrupt_entered, Nat.add_assoc]
  exact Nat.zero_add _

/-- The handler's instruction begins just as well when the cycles of the service were spent
first, and leaves the same but for what is left to spend and the count. -/
theorem Begins.entered (h : m.Begins i t) :
    m.entered.Begins i {t with
      cyclesLeft := BitVec.ofNat 32 (i.penalty m.cpu.takeInterrupt)
      totalCycles := m.cpu.totalCycles + 7} where
  failure := h.failure
  cyclesLeft := rfl
  running := h.vectored
  vectored := by
    rw [takeInterrupt_entered]
    exact h.vectored
  fetch := by
    rw [takeInterrupt_entered]
    exact h.fetch
  instruct := by
    have hsettled : Ledger.settle
        {m.cpu.takeInterrupt.ledger with cyclesLeft := 0, totalCycles := m.cpu.totalCycles + 7}
        i.encoding.family (i.penalty m.cpu.takeInterrupt) =
        {t.ledger with
          cyclesLeft := BitVec.ofNat 32 (i.penalty m.cpu.takeInterrupt)
          totalCycles := m.cpu.totalCycles + 7} := by
      rw [Cpu.ledger_instruct h.fetch h.instruct]
      simp [Ledger.settle, Ledger.charge]
    rw [takeInterrupt_entered, cpu_entered, Cpu.instruct_withLedger h.fetch h.instruct, hsettled]
    rfl

/-- Both machines meet on the last cycle of the instruction. -/
theorem Begins.after_eq (h : m.Begins i t) (hp : m.cpu.pendingInterrupt = some k) :
    m.takeInterrupt.Advances (m.cost i) ∧
      m.takeInterrupt.after (m.cost i) = m.after (m.cost i) := by
  obtain ⟨hadvances, hafter⟩ := after_takeInterrupt h.failure hp
  have hcost : m.cost i = 7 + m.entered.cost i := by rw [cost_of_pending hp, cost_entered]
  have htotal : m.cpu.totalCycles + BitVec.ofNat 64 (7 + m.entered.cost i) =
      m.cpu.totalCycles + 7 + BitVec.ofNat 64 (m.entered.cost i) := by
    rw [BitVec.ofNat_add, ← BitVec.add_assoc]
    rfl
  constructor
  · rw [hcost]
    apply hadvances.add
    rw [hafter]
    exact h.entered.advances
  · rw [h.after_cost, hcost, after_add, hafter, h.entered.after_cost]
    unfold during
    rw [hcost, htotal, Nat.sub_self, Nat.sub_self]
    rfl

/-! ### A vector that leads nowhere -/

/-- At a vector that leads to the halt address the service is spent all the same. -/
theorem AtBoundary.after_of_vectored (h : m.AtBoundary) (hp : m.cpu.pendingInterrupt = some k)
    (hhalt : m.cpu.takeInterrupt.registers.pc = Cpu.haltAddress) :
    m.Advances 7 ∧ m.after 7 = {m.entered with current := none, failure := none} := by
  have hcycle : m.cycle = (true, ⟨m.cpu.takeInterrupt.tick, none, none⟩) := by
    cases h.beginning with
    | vectored _ heq => exact heq
    | undeclared hu _ => exact absurd hhalt hu.vectored
    | retired _ _ hb _ => exact absurd hhalt hb.vectored
  have hleft : 6 ≤ m.cpu.takeInterrupt.tick.cyclesLeft.toNat := by
    rw [Cpu.toNat_cyclesLeft_tick, Cpu.cyclesLeft_takeInterrupt_of_some hp]
    decide
  have hone : m.Advances 1 := by
    rintro j hj
    obtain rfl := Nat.lt_one_iff.mp hj
    exact congrArg Prod.fst hcycle
  have hafter : m.after 1 = ⟨m.cpu.takeInterrupt.tick, none, none⟩ := congrArg Prod.snd hcycle
  constructor
  · apply hone.add (b := 6)
    rw [hafter]
    exact advances_draining rfl hleft
  · rw [show 7 = 1 + 6 from rfl, after_add, hafter,
      after_draining (m := ⟨m.cpu.takeInterrupt.tick, none, none⟩) rfl hleft]
    have htotal : m.cpu.totalCycles + 1 + BitVec.ofNat 64 6 = m.cpu.totalCycles + 7 :=
      BitVec.add_assoc _ _ _
    unfold drained entered Cpu.tick
    simp only [Cpu.cyclesLeft_takeInterrupt_of_some hp, m.cpu.sameData_takeInterrupt.totalCycles,
      htotal]
    rfl

theorem Undecodable.entered (h : m.Undecodable) : m.entered.Undecodable where
  failure := h.failure
  cyclesLeft := rfl
  running := h.vectored
  vectored := by
    rw [takeInterrupt_entered]
    exact h.vectored
  undeclared := by
    rw [takeInterrupt_entered]
    exact h.undeclared

/-! ### Both ways -/

/-- What comes of serving the interrupt at a boundary by hand, beside leaving it to the machine. -/
structure ForcedAlike (m : Machine) : Prop where
  /-- With an instruction at the handler, both are the same machine once it is over. -/
  handled : m.cpu.takeInterrupt.registers.pc ≠ Cpu.haltAddress →
    ∀ f : Family,
      f.declares (m.cpu.takeInterrupt.memory.read m.cpu.takeInterrupt.registers.pc) = true →
      ∃ i, m.cpu.takeInterrupt.fetch = .ok i ∧
        let cycles := 7 + (i.encoding.cycles + i.penalty m.cpu.takeInterrupt)
        m.takeInterrupt.Advances cycles ∧ m.Advances cycles ∧
          m.takeInterrupt.after cycles = m.after cycles
  /-- Both come to a halt when the service is spent, in the same state. -/
  halted : m.cpu.takeInterrupt.registers.pc = Cpu.haltAddress →
    m.takeInterrupt.Advances 7 ∧ m.Advances 7 ∧
      (m.takeInterrupt.after 7).Halted ∧ (m.after 7).Halted ∧
      (m.takeInterrupt.after 7).cpu = (m.after 7).cpu
  /-- Both fail alike, forced only when the service is spent. -/
  failed : m.cpu.takeInterrupt.registers.pc ≠ Cpu.haltAddress →
    (∀ f : Family,
      f.declares (m.cpu.takeInterrupt.memory.read m.cpu.takeInterrupt.registers.pc) = false) →
    m.takeInterrupt.Advances 7 ∧ (m.takeInterrupt.after 7).cycle.1 = false ∧ m.cycle.1 = false ∧
      (∃ failure, (m.takeInterrupt.after 8).failure = some failure ∧
        m.cycle.2.failure = some failure) ∧
      m.cycle.2.cpu.cyclesLeft = 7 ∧
      (m.takeInterrupt.after 8).cpu = {m.cycle.2.cpu with
        cyclesLeft := 0
        totalCycles := m.cycle.2.cpu.totalCycles + 7}

theorem AtBoundary.forcedAlike (h : m.AtBoundary) (hp : m.cpu.pendingInterrupt = some k) :
    m.ForcedAlike where
  handled hr f hd := by
    rcases m.cpu.takeInterrupt.fetch_or_undeclared with ⟨i, hi⟩ | ⟨hn, -⟩
    · obtain ⟨t, ht, -⟩ := Cpu.instruct_spec hi
      have hb : m.Begins i t := {h with vectored := hr, fetch := hi, instruct := ht}
      obtain ⟨hadvances, heq⟩ := hb.after_eq hp
      rw [cost_of_pending hp] at hadvances heq
      exact ⟨i, hi, hadvances, cost_of_pending hp i ▸ hb.advances, heq⟩
    · rw [hn f] at hd
      cases hd
  halted hhalt := by
    obtain ⟨hforced, hentered⟩ := after_takeInterrupt h.failure hp
    obtain ⟨hadvances, hafter⟩ := h.after_of_vectored hp hhalt
    rw [hentered, hafter]
    exact ⟨hforced, hadvances, ⟨h.failure, rfl, hhalt⟩, ⟨rfl, rfl, hhalt⟩, rfl⟩
  failed hr hn := by
    have hu : m.Undecodable := {h with vectored := hr, undeclared := hn}
    obtain ⟨hforced, hentered⟩ := after_takeInterrupt h.failure hp
    have hlast : (m.takeInterrupt.after 7).cycle = (false, m.entered.stalled) := by
      rw [hentered, hu.entered.cycle]
    have hafter : m.takeInterrupt.after 8 = m.entered.stalled := congrArg Prod.snd hlast
    rw [hlast, hafter, hu.cycle]
    refine ⟨hforced, rfl, rfl, ⟨_, ?_, rfl⟩, Cpu.cyclesLeft_takeInterrupt_of_some hp, ?_⟩
    · unfold stalled
      rw [takeInterrupt_entered]
      rfl
    · unfold stalled
      rw [takeInterrupt_entered]
      show _ = {m.cpu.takeInterrupt with
        cyclesLeft := 0
        totalCycles := m.cpu.takeInterrupt.totalCycles + 7}
      rw [m.cpu.sameData_takeInterrupt.totalCycles]
      rfl

/-- **Forcing the service changes nothing but when.** Looking for interrupts twice is looking
once; and at a boundary with an interrupt to be served, looking before the next cycle does comes
to the same. -/
theorem forced_service (m : Machine) :
    m.takeInterrupt.takeInterrupt = m.takeInterrupt ∧
      (m.AtBoundary → m.cpu.pendingInterrupt ≠ none → m.ForcedAlike) := by
  refine ⟨congrArg (fun s => {m with cpu := s}) m.cpu.takeInterrupt_takeInterrupt, fun h hp => ?_⟩
  obtain ⟨k, hk⟩ := Option.ne_none_iff_exists'.mp hp
  exact h.forcedAlike hk

/-- Both ways take seven cycles for the service, four for the load and one for the page. -/
theorem interruptedLoad_forced : interruptedLoad.takeInterrupt.Advances 12 ∧
    interruptedLoad.takeInterrupt.after 12 = interruptedLoad.after 12 := by
  have hpc := interruptedLoad_pc
  obtain ⟨-, halike⟩ := forced_service interruptedLoad
  obtain ⟨i, hi, hadvances, -, heq⟩ :=
    (halike ⟨rfl, rfl, by decide⟩ (by decide)).handled (by rw [hpc]; decide) .lda
      (by rw [hpc]; decide +kernel)
  obtain rfl := Except.ok.inj (hi.symm.trans interruptedLoad_fetch)
  have hcost : 7 + (4 + Instruction.penalty ⟨0, ⟨0xBD, .lda, .absoluteX, 4, true⟩, 0x00FF⟩
      interruptedLoad.cpu.takeInterrupt) = 12 := by
    decide +kernel
  rw [hcost] at hadvances heq
  exact ⟨hadvances, heq⟩

end Machine

end Nmos6502
