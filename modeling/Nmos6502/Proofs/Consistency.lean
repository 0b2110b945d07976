import Nmos6502.Proofs.Frame
import Nmos6502.Proofs.Run

/-! What is always known of the instruction begun last and of the failure.

A machine keeps the instruction it began last while its cycles drain, and the failure that
stopped it. However a machine set up anew is driven, loaded, restored or interrupted, the one
is a declaration of the opcode on record, fetched from anywhere but the halt address, and
there is no failure beside it; and the other is a byte that no family declares, again not at
the halt address (`Consistent`). Every operation keeps this (`Consistent.perform`). -/
namespace Nmos6502

/-- What a boundary can fetch. -/
structure Instruction.Fetchable (i : Instruction) : Prop where
  address : i.address ≠ Cpu.haltAddress
  entry : Encoding.ofOpcode? i.encoding.opcode = some i.encoding
  declared : i.encoding.family.declares i.encoding.opcode = true
  implied : i.encoding.size = 1 → i.operand = 0
  short : i.encoding.size = 2 → i.operand.toNat < 256

/-- A byte was to be fetched that no family declares. -/
structure Failure.Undeclared (f : Failure) : Prop where
  address : f.address ≠ Cpu.haltAddress
  cause : ∃ b, f.cause = .unknownOpcode b ∧ ∀ g : Family, g.declares b = false

theorem Instruction.fetchable_of_fetch {m : Memory} {address : Word} {i : Instruction}
    (h : fetch m address = .ok i) (ha : address ≠ Cpu.haltAddress) : i.Fetchable := by
  obtain ⟨he, haddr, hw⟩ := fetch_eq_ok_iff.mp h
  have hd := encoding?_of_fetch h
  refine ⟨haddr ▸ ha, ?_, ?_, fun hs => ?_, fun hs => ?_⟩
  · rw [Encoding.opcode_of_ofOpcode? he, he]
  · rw [← Family.isSome_encoding?, hd]
    rfl
  · have hn : i.encoding.mode.operandBytes = 0 := Nat.add_left_cancel hs
    rw [hw, hn]
    rfl
  · have hn : i.encoding.mode.operandBytes = 1 := Nat.add_left_cancel hs
    rw [hw, hn]
    simp only [operandAt, Byte.toWord, BitVec.toNat_setWidth]
    omega

namespace Machine
variable {α : Type} {m : Machine}

/-- What is known of the instruction begun last and of the failure. -/
structure Consistent (m : Machine) : Prop where
  current : ∀ i, m.current = some i →
    i.Fetchable ∧ m.cpu.opcode = i.encoding.opcode ∧ m.failure = none
  failure : ∀ f, m.failure = some f → f.Undeclared

/-- A machine as it is set up. -/
inductive SetUp : Machine → Prop where
  | blank : SetUp blank
  | ofMemory (memory : Memory) : SetUp (ofMemory memory)
  | ofImage {image : List Byte} {m : Machine} (h : ofImage image = .ok m) : SetUp m

theorem consistent_of_none (hc : m.current = none) (hf : m.failure = none) : m.Consistent where
  current := by simp [hc]
  failure := by simp [hf]

theorem consistent_of_current {i : Instruction} (hc : m.current = some i) (hi : i.Fetchable)
    (ho : m.cpu.opcode = i.encoding.opcode) (hf : m.failure = none) : m.Consistent where
  current j hj := by
    obtain rfl : i = j := Option.some.inj (hc.symm.trans hj)
    exact ⟨hi, ho, hf⟩
  failure := by simp [hf]

theorem consistent_of_failure {f : Failure} (hc : m.current = none) (hf : m.failure = some f)
    (h : f.Undeclared) : m.Consistent where
  current := by simp [hc]
  failure g hg := by
    obtain rfl : f = g := Option.some.inj (hf.symm.trans hg)
    exact h

theorem consistent_ofMemory (memory : Memory) : (ofMemory memory).Consistent :=
  consistent_of_none rfl rfl

theorem SetUp.consistent (h : m.SetUp) : m.Consistent := by
  cases h with
  | blank => exact consistent_ofMemory .zero
  | ofMemory memory => exact consistent_ofMemory memory
  | @ofImage image _ h =>
    unfold Machine.ofImage load at h
    cases hm : Memory.ofList image with
    | error e => simp [hm] at h
    | ok memory =>
      simp only [hm, Except.ok.injEq] at h
      exact h ▸ consistent_ofMemory memory

/-! ### Every operation keeps it -/

theorem Consistent.cycle (h : m.Consistent) : m.cycle.2.Consistent := by
  cases m.outcome with
  | failed _ heq | halted _ heq =>
    rw [heq]
    exact h
  | draining _ _ heq =>
    rw [heq]
    exact ⟨h.current, h.failure⟩
  | boundary _ how =>
    cases how with
    | vectored _ heq =>
      rw [heq]
      exact consistent_of_none rfl rfl
    | undeclared hu heq =>
      rw [heq]
      exact consistent_of_failure rfl rfl ⟨hu.vectored, _, rfl, hu.undeclared⟩
    | retired i t hb heq =>
      have hi := Instruction.fetchable_of_fetch hb.fetch hb.vectored
      have ho : t.opcode = i.encoding.opcode := Cpu.opcode_instruct hb.fetch hb.instruct
      rw [heq]
      exact consistent_of_current rfl hi ho rfl

theorem Consistent.load (h : m.Consistent) (image : Option (List Byte)) :
    (m.load image).2.Consistent := by
  cases image with
  | none => exact h
  | some image =>
    simp only [Machine.load]
    cases Memory.ofList image with
    | error e => exact h
    | ok memory => exact consistent_ofMemory memory

theorem Consistent.run (h : m.Consistent) (budget : Nat) : (m.run budget).2.Consistent :=
  run_keeps (fun _ hm => Consistent.cycle hm) h budget

theorem Consistent.perform (h : m.Consistent) (op : Operation α) :
    (m.perform op).2.Consistent := by
  cases op with
  | cycle | cycleWith observe => exact h.cycle
  | run budget => exact h.run budget
  | runUntilHalt limit =>
    show (m.runUntilHalt limit).2.Consistent
    rw [(m.runUntilHalt_run limit).1]
    exact h.run limit
  | takeInterrupt =>
    refine ⟨fun i hi => ?_, h.failure⟩
    obtain ⟨hd, ho, hf⟩ := h.current i hi
    exact ⟨hd, m.cpu.sameData_takeInterrupt.opcode.trans ho, hf⟩
  | request k => cases k <;> exact ⟨h.current, h.failure⟩
  | load image => exact h.load image
  | reset => exact consistent_ofMemory _
  | restore snapshot => exact consistent_of_none rfl rfl
  | clearFailure =>
    refine ⟨fun i hi => ?_, nofun⟩
    obtain ⟨hd, ho, -⟩ := h.current i hi
    exact ⟨hd, ho, rfl⟩
  | save | snapshot => exact h

theorem Consistent.play (h : m.Consistent) (ops : List (Operation α)) :
    (m.play ops).Consistent := by
  induction ops generalizing m with
  | nil => exact h
  | cons op rest ih => exact ih (h.perform op)

/-- A boundary leaves an instruction or a failure, with the address it fetched from. -/
theorem AtBoundary.begun_or_failed (h : m.AtBoundary)
    (hv : m.cpu.takeInterrupt.registers.pc ≠ Cpu.haltAddress) :
    (∃ i, m.cycle.2.current = some i ∧ i.address = m.cpu.takeInterrupt.registers.pc) ∨
      ∃ f, m.cycle.2.failure = some f ∧ f.address = m.cpu.takeInterrupt.registers.pc := by
  cases h.beginning with
  | vectored halt _ => exact absurd halt hv
  | undeclared _ heq =>
    rw [heq]
    exact .inr ⟨_, rfl, rfl⟩
  | retired i t hb heq =>
    rw [heq]
    exact .inl ⟨i, rfl, (Instruction.fetch_eq_ok_iff.mp hb.fetch).2.1⟩

/-- **What every reachable machine keeps.** Whatever is done to a machine that was set up, the
instruction it began last is one a boundary can fetch, with its opcode on record and no failure
stored, and a stored failure is an undeclared byte. Every boundary records one or the other,
unless it leads to the halt address, and a run that meets its limit stores no failure. -/
theorem reachable_consistent (h : m.SetUp) (ops : List (Operation α)) :
    (m.play ops).Consistent ∧
    ((m.play ops).AtBoundary →
      (m.play ops).cpu.takeInterrupt.registers.pc ≠ Cpu.haltAddress →
      (∃ i, (m.play ops).cycle.2.current = some i ∧
        i.address = (m.play ops).cpu.takeInterrupt.registers.pc) ∨
      ∃ f, (m.play ops).cycle.2.failure = some f ∧
        f.address = (m.play ops).cpu.takeInterrupt.registers.pc) ∧
    ∀ limit l, ((m.play ops).runUntilHalt limit).1 = .error (.cycleLimit l) →
      ((m.play ops).runUntilHalt limit).2.failure = none :=
  ⟨h.consistent.play ops, AtBoundary.begun_or_failed, fun _ _ => failure_of_cycleLimit⟩

/-- A cycle, then a request and a load that is rejected while its instruction goes on. -/
def disturbed : List (Operation Unit) := [.cycle, .request .hardware, .run 3, .load (some [])]

/-- Zeroed memory holds zeroed vectors. -/
theorem blank_eq :
    blank = ⟨{Cpu.powerOn .zero with registers := ⟨0, 0, 0, 0xFF, 0⟩}, none, none⟩ := by
  have hpc : Memory.zero.readWord Interrupt.software.vector = 0 := by
    simp only [Memory.readWord, Memory.read_zero]
    rfl
  simp only [blank, ofMemory, Cpu.powerOn, Registers.powerOn, hpc]

/-- The instruction that goes on is the break at address zero. -/
theorem blank_disturbed_consistent :
    blank.SetUp ∧
    (blank.play disturbed).current = some ⟨0, ⟨0x00, .brk, .implicit, 7, true⟩, 0⟩ ∧
    (blank.play disturbed).Consistent :=
  ⟨.blank, by rw [blank_eq]; decide +kernel, (reachable_consistent .blank disturbed).1⟩

end Machine

end Nmos6502
