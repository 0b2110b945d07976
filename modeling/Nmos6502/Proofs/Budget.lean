import Nmos6502.Proofs.Consistency
import Nmos6502.Proofs.Restart
import Nmos6502.Proofs.Timing

/-! The cycles that are left, from above.

Cycles are only added where an instruction begins, and it begins with none left or with the seven
of a service: at most eight come to those, so nothing is ever carried out of the 32 bits
(`Begins.added`), whatever count a machine was restored with. A cycle is spent from the sum, so a
boundary ends with at most fourteen left, and however a machine is driven, it never has more than
that or than it had (`cyclesLeft_play_le`). -/
namespace Nmos6502

namespace Cpu

theorem toNat_cyclesLeft_charge {s : Cpu} {cycles : Nat}
    (h : s.cyclesLeft.toNat + cycles < 4294967296) :
    (s.charge cycles).cyclesLeft.toNat = s.cyclesLeft.toNat + cycles := by
  show (s.cyclesLeft + BitVec.ofNat 32 cycles).toNat = _
  rw [BitVec.toNat_add, BitVec.toNat_ofNat]
  omega

/-- Looking for interrupts replaces what is left or leaves it. -/
theorem cyclesLeft_takeInterrupt (s : Cpu) :
    s.takeInterrupt.cyclesLeft = s.cyclesLeft ∨ s.takeInterrupt.cyclesLeft = 7 := by
  cases hp : s.pendingInterrupt with
  | none =>
    rw [takeInterrupt_of_none hp]
    exact .inl rfl
  | some k => exact .inr (cyclesLeft_takeInterrupt_of_some hp)

end Cpu

namespace Machine
variable {α : Type} {m : Machine} {i : Instruction} {t : Cpu}

/-! ### What is added -/

theorem AtBoundary.toNat_cyclesLeft_takeInterrupt (h : m.AtBoundary) :
    m.cpu.takeInterrupt.cyclesLeft.toNat = m.serviceCycles := by
  have hs := m.serviceCycles_le
  rw [h.cyclesLeft_takeInterrupt, BitVec.toNat_ofNat, Nat.mod_eq_of_lt (by omega)]

/-- What an instruction adds, first its base cycles and then its penalty, is added exactly. -/
theorem Begins.added (h : m.Begins i t) :
    m.cpu.takeInterrupt.cyclesLeft.toNat + i.encoding.cycles + i.penalty m.cpu.takeInterrupt ≤ 15 ∧
      (i.begin m.cpu.takeInterrupt).cyclesLeft.toNat =
        m.cpu.takeInterrupt.cyclesLeft.toNat + i.encoding.cycles ∧
      ∃ u, i.execute (i.begin m.cpu.takeInterrupt) = .ok () u ∧
        u.cyclesLeft.toNat =
          (i.begin m.cpu.takeInterrupt).cyclesLeft.toNat + i.penalty m.cpu.takeInterrupt := by
  have hcost : m.cpu.takeInterrupt.cyclesLeft.toNat + i.encoding.cycles +
      i.penalty m.cpu.takeInterrupt ≤ 15 := by
    rw [h.toNat_cyclesLeft_takeInterrupt]
    exact h.cost_bounds.2
  have hbegin : (i.begin m.cpu.takeInterrupt).cyclesLeft.toNat =
      m.cpu.takeInterrupt.cyclesLeft.toNat + i.encoding.cycles :=
    Cpu.toNat_cyclesLeft_charge (s := m.cpu.takeInterrupt) (by omega)
  obtain ⟨u, -, hledger, hexecute⟩ := Cpu.instruct_spec h.fetch
  have hpenalty : u.cyclesLeft.toNat =
      m.cpu.takeInterrupt.cyclesLeft.toNat + i.penalty m.cpu.takeInterrupt := by
    rw [show u.cyclesLeft = (m.cpu.takeInterrupt.charge (i.penalty m.cpu.takeInterrupt)).cyclesLeft
      from congrArg Ledger.cyclesLeft hledger]
    exact Cpu.toNat_cyclesLeft_charge (by omega)
  have hboth : (u.charge i.encoding.cycles).cyclesLeft.toNat =
      u.cyclesLeft.toNat + i.encoding.cycles :=
    Cpu.toNat_cyclesLeft_charge (by omega)
  exact ⟨hcost, hbegin, _, hexecute, by omega⟩

/-! ### One cycle -/

theorem toNat_cyclesLeft_of_draining (hf : m.failure = none) (hc : m.cpu.cyclesLeft ≠ 0) :
    m.cycle.2.cpu.cyclesLeft.toNat = m.cpu.cyclesLeft.toNat - 1 := by
  rw [cycle_of_draining (phase_of_draining hf hc)]
  exact m.cpu.toNat_cyclesLeft_tick

theorem Begins.toNat_cyclesLeft_cycle (h : m.Begins i t) :
    m.cycle.2.cpu.cyclesLeft.toNat = m.cost i - 1 := by
  rw [h.cycle_eq_during]
  exact h.cyclesLeft_during 1

/-- Where no instruction begins there is at most a service to be spent. -/
theorem cyclesLeft_le_of_not_begins (h : ∀ i t, ¬ m.Begins i t) :
    m.cycle.2.cpu.cyclesLeft.toNat ≤ max m.cpu.cyclesLeft.toNat 7 := by
  have hs := m.serviceCycles_le
  cases m.outcome with
  | failed _ heq | halted _ heq =>
    rw [heq]
    exact Nat.le_max_left _ _
  | draining hf hc _ =>
    rw [toNat_cyclesLeft_of_draining hf hc]
    omega
  | boundary hb how =>
    have hservice := hb.toNat_cyclesLeft_takeInterrupt
    cases how with
    | vectored _ heq =>
      rw [heq]
      show m.cpu.takeInterrupt.tick.cyclesLeft.toNat ≤ _
      rw [Cpu.toNat_cyclesLeft_tick]
      omega
    | undeclared _ heq =>
      rw [heq]
      show m.cpu.takeInterrupt.cyclesLeft.toNat ≤ _
      omega
    | retired i t hbegins _ => exact absurd hbegins (h i t)

theorem cyclesLeft_cycle_le (m : Machine) :
    m.cycle.2.cpu.cyclesLeft.toNat ≤ max m.cpu.cyclesLeft.toNat 14 := by
  by_cases h : ∃ i t, m.Begins i t
  · obtain ⟨i, t, hb⟩ := h
    have hcost := hb.cost_bounds.2
    rw [hb.toNat_cyclesLeft_cycle]
    omega
  · have hle := cyclesLeft_le_of_not_begins fun i t hb => h ⟨i, t, hb⟩
    omega

/-! ### However it is driven -/

variable {limit : Nat}

/-- A limit of fourteen or more that a machine and the snapshots restored into it keep to is kept
to by every operation. -/
theorem cyclesLeft_perform_le (hl : 14 ≤ limit) (h : m.cpu.cyclesLeft.toNat ≤ limit)
    {op : Operation α}
    (hr : ∀ snapshot, op = .restore snapshot → snapshot.cyclesLeft.toNat ≤ limit) :
    (m.perform op).2.cpu.cyclesLeft.toNat ≤ limit := by
  have hcycle (m : Machine) (h : m.cpu.cyclesLeft.toNat ≤ limit) :
      m.cycle.2.cpu.cyclesLeft.toNat ≤ limit := by
    have hle := m.cyclesLeft_cycle_le
    omega
  have hrun (budget : Nat) : (m.run budget).2.cpu.cyclesLeft.toNat ≤ limit :=
    run_keeps (P := fun m => m.cpu.cyclesLeft.toNat ≤ limit) hcycle h budget
  cases op with
  | cycle | cycleWith observe => exact hcycle m h
  | run budget => exact hrun budget
  | runUntilHalt budget =>
    show (m.runUntilHalt budget).2.cpu.cyclesLeft.toNat ≤ limit
    rw [(m.runUntilHalt_run budget).1]
    exact hrun budget
  | takeInterrupt =>
    show m.cpu.takeInterrupt.cyclesLeft.toNat ≤ limit
    rcases m.cpu.cyclesLeft_takeInterrupt with he | he <;> rw [he]
    · exact h
    · exact Nat.le_trans (by decide) hl
  | request k => cases k <;> exact h
  | load image =>
    show (m.load image).2.cpu.cyclesLeft.toNat ≤ limit
    rcases m.load_cases image with he | ⟨memory, he⟩ <;> rw [he]
    · exact h
    · exact Nat.zero_le limit
  | reset => exact Nat.zero_le limit
  | restore snapshot => exact hr snapshot rfl
  | clearFailure | save | snapshot => exact h

theorem cyclesLeft_play_le (hl : 14 ≤ limit) (h : m.cpu.cyclesLeft.toNat ≤ limit)
    {ops : List (Operation α)}
    (hr : ∀ snapshot, .restore snapshot ∈ ops → snapshot.cyclesLeft.toNat ≤ limit) :
    (m.play ops).cpu.cyclesLeft.toNat ≤ limit := by
  induction ops generalizing m with
  | nil => exact h
  | cons op rest ih =>
    have hop : (m.perform op).2.cpu.cyclesLeft.toNat ≤ limit :=
      cyclesLeft_perform_le hl h fun snapshot he => hr snapshot (he ▸ List.mem_cons_self)
    exact ih hop fun snapshot hs => hr snapshot (List.mem_cons_of_mem _ hs)

theorem SetUp.cyclesLeft (h : m.SetUp) : m.cpu.cyclesLeft = 0 := by
  cases h with
  | blank | ofMemory _ => rfl
  | ofImage h =>
    obtain ⟨memory, rfl⟩ := exists_ofMemory_of_ofImage h
    rfl

/-! ### Fourteen -/

/-- The vectors lead to the longest instruction. -/
def slowest : Machine := ofMemory (Memory.zero.write 0 0x03)

theorem slowest_readWord (k : Interrupt) : slowest.cpu.memory.readWord k.vector = 0 := by
  have hlow : (0 : Word) ≠ k.vector := by cases k <;> decide
  have hhigh : (0 : Word) ≠ k.vector + 1 := by cases k <;> decide
  show (Memory.zero.write 0 0x03).readWord k.vector = 0
  rw [Memory.readWord_write_of_ne _ _ hlow hhigh]
  simp only [Memory.readWord, Memory.read_zero]
  rfl

theorem slowest_pc : (slowest.request .hardware).cpu.takeInterrupt.registers.pc = 0 := by
  rw [Cpu.pc_takeInterrupt_of_some (k := .hardware) rfl]
  exact slowest_readWord .hardware

theorem slowest_fetch : (slowest.request .hardware).cpu.takeInterrupt.fetch =
    .ok ⟨0, ⟨0x03, .slo, .indirectX, 8, false⟩, 0⟩ := by
  unfold Cpu.fetch
  rw [slowest_pc]
  exact Instruction.fetch_eq_ok_iff.mpr ⟨by decide, rfl, by decide⟩

theorem slowest_cyclesLeft : (slowest.request .hardware).cycle.2.cpu.cyclesLeft.toNat = 14 := by
  obtain ⟨t, ht, -⟩ := Cpu.instruct_spec slowest_fetch
  have hb : (slowest.request .hardware).Begins _ t := {
    failure := rfl
    cyclesLeft := rfl
    running := by
      rw [show (slowest.request .hardware).cpu.registers.pc = 0 from slowest_readWord .software]
      decide
    vectored := by rw [slowest_pc]; decide
    fetch := slowest_fetch
    instruct := ht }
  exact hb.toNat_cyclesLeft_cycle

/-- What is known of the cycles that are left around one step. -/
structure Budget (m : Machine) : Prop where
  /-- An instruction adds its base cycles and then its penalty, and no sum is too large. -/
  added : ∀ i t, m.Begins i t →
    m.cpu.takeInterrupt.cyclesLeft.toNat + i.encoding.cycles + i.penalty m.cpu.takeInterrupt ≤ 15 ∧
      (i.begin m.cpu.takeInterrupt).cyclesLeft.toNat =
        m.cpu.takeInterrupt.cyclesLeft.toNat + i.encoding.cycles ∧
      ∃ u, i.execute (i.begin m.cpu.takeInterrupt) = .ok () u ∧
        u.cyclesLeft.toNat =
          (i.begin m.cpu.takeInterrupt).cyclesLeft.toNat + i.penalty m.cpu.takeInterrupt
  /-- Nothing is added where none begins. -/
  elsewhere : (∀ i t, ¬ m.Begins i t) →
    m.cycle.2.cpu.cyclesLeft.toNat ≤ max m.cpu.cyclesLeft.toNat 7
  drained : m.failure = none → m.cpu.cyclesLeft ≠ 0 →
    m.cycle.2.cpu.cyclesLeft.toNat = m.cpu.cyclesLeft.toNat - 1
  begun : m.cpu.cyclesLeft = 0 → m.cycle.2.cpu.cyclesLeft.toNat ≤ 14
  forced : m.takeInterrupt.cpu.cyclesLeft ≠ m.cpu.cyclesLeft →
    m.takeInterrupt.cpu.cyclesLeft.toNat ≤ 14

theorem budget (m : Machine) : m.Budget where
  added i t h := h.added
  elsewhere := cyclesLeft_le_of_not_begins
  drained := toNat_cyclesLeft_of_draining
  begun hc := by
    have hle := m.cyclesLeft_cycle_le
    rw [hc] at hle
    exact hle
  forced hne := by
    have hseven := m.cpu.cyclesLeft_takeInterrupt.resolve_left hne
    show m.cpu.takeInterrupt.cyclesLeft.toNat ≤ 14
    rw [hseven]
    decide

/-- **Cycles never overflow.** Whatever is done to a machine but restoring another, it never has
more cycles left than fourteen or what it had, and a machine that was set up never more than
fourteen, which an interrupt before the longest instruction comes to. -/
theorem cycles_never_overflow (m : Machine) :
    m.Budget ∧
    (∀ ops : List (Operation α), (∀ snapshot, .restore snapshot ∉ ops) →
      (m.play ops).cpu.cyclesLeft.toNat ≤ max m.cpu.cyclesLeft.toNat 14 ∧
        (m.SetUp → (m.play ops).cpu.cyclesLeft.toNat ≤ 14)) ∧
    ∃ n : Machine, n.SetUp ∧ (n.request .hardware).cycle.2.cpu.cyclesLeft.toNat = 14 := by
  refine ⟨m.budget, fun ops hops => ?_, slowest, .ofMemory _, slowest_cyclesLeft⟩
  have hplay : (m.play ops).cpu.cyclesLeft.toNat ≤ max m.cpu.cyclesLeft.toNat 14 :=
    cyclesLeft_play_le (Nat.le_max_right _ _) (Nat.le_max_left _ _)
      fun snapshot hs => absurd hs (hops snapshot)
  refine ⟨hplay, fun h => ?_⟩
  rw [h.cyclesLeft] at hplay
  exact hplay

end Machine

end Nmos6502
