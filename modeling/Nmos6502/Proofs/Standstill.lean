import Nmos6502.Proofs.Cycle
import Nmos6502.Proofs.Operation

/-! When a cycle does not advance, and what comes after.

There are three ways: a failure is stored, the program is over, or a boundary finds a byte
that no family declares. The first two leave the machine as it is. The third keeps what
serving an interrupt did and stores the failure, and nothing else ever stores one. From
then on cycles, runs and requests find the machine `Frozen`: they can raise its latches,
and that is all (`standstill`). -/
namespace Nmos6502

namespace Machine
variable {α : Type} {m : Machine}

/-! ### The cycles that do not advance -/

/-- A failure is stored or the program is over. -/
def Stopped (m : Machine) : Prop := m.failure ≠ none ∨ m.Halted

theorem Stopped.cycle (h : m.Stopped) : m.cycle = (false, m) := by
  rcases h with hf | hh
  · exact cycle_of_failed (phase_of_failed hf)
  · exact cycle_of_halted hh.phase

theorem stopped_stalled (m : Machine) : m.stalled.Stopped := by
  left
  intro h
  cases h

theorem cycle_eq_false_iff : m.cycle.1 = false ↔ m.Stopped ∨ m.Undecodable := by
  constructor
  · intro h
    cases m.outcome with
    | failed hf _ => exact .inl (.inl hf)
    | halted hh _ => exact .inl (.inr hh)
    | draining _ _ heq =>
      rw [heq] at h
      cases h
    | boundary _ how =>
      cases how with
      | undeclared hu _ => exact .inr hu
      | vectored _ heq | retired _ _ _ heq =>
        rw [heq] at h
        cases h
  · rintro (hs | hu)
    · rw [hs.cycle]
    · rw [hu.cycle]

/-- A cycle stores a failure only where it cannot fetch. -/
theorem undecodable_of_failure (h : m.failure = none) (hf : m.cycle.2.failure ≠ none) :
    m.Undecodable := by
  cases m.outcome with
  | failed hn _ => exact absurd h hn
  | draining _ _ heq | halted _ heq =>
    rw [heq] at hf
    exact absurd h hf
  | boundary _ how =>
    cases how with
    | undeclared hu _ => exact hu
    | vectored _ heq | retired _ _ _ heq =>
      rw [heq] at hf
      exact absurd rfl hf

/-- After a cycle that did not advance the machine is stopped. -/
theorem stopped_of_cycle (h : m.cycle.1 = false) : m.cycle.2.Stopped := by
  rcases cycle_eq_false_iff.mp h with hs | hu
  · rw [hs.cycle]
    exact hs
  · rw [hu.cycle]
    exact m.stopped_stalled

/-! ### Stopped for good -/

/-- No cycle advances the machine or changes it, however it is asked for. -/
structure Frozen (m : Machine) : Prop where
  cycle : m.cycle = (false, m)
  cycleWith : ∀ {α : Type} (observe : Cpu → α), m.cycleWith observe = ((false, observe m.cpu), m)
  run : ∀ budget, m.run budget = (0, m)
  runUntilHalt : ∀ limit, m.runUntilHalt limit =
    (match m.failure with
      | some failure => .error (.failed failure)
      | none => .ok 0, m)

theorem Stopped.frozen (h : m.Stopped) : m.Frozen := by
  have hrun (budget : Nat) : m.run budget = (0, m) := by
    cases budget with
    | zero => rfl
    | succ budget => simp [run_succ, h.cycle]
  refine ⟨h.cycle, fun observe => ?_, hrun, fun limit => ?_⟩
  · simp only [Machine.cycleWith, h.cycle]
  · simp only [Machine.runUntilHalt, hrun]
    cases hf : m.failure with
    | some failure => rfl
    | none =>
      rcases h with hn | hh
      · exact absurd hf hn
      · simp [Cpu.isMidInstruction, Cpu.isRunning, hh.cyclesLeft, hh.halted]

theorem Stopped.raise (h : m.Stopped) (hardware software : Bool) :
    (m.raise hardware software).Stopped := by
  rcases h with hf | hh
  · exact .inl hf
  · exact .inr ⟨hh.failure, hh.cyclesLeft, hh.halted⟩

/-- On a stopped machine an operation that drives it can only raise a latch. -/
theorem Stopped.perform (h : m.Stopped) {op : Operation α} (hd : op.drives = true) :
    (m.perform op).2 = m.raise (op.requests .hardware) (op.requests .software) := by
  have hf := h.frozen
  cases op with
  | cycle => simp [Machine.perform, Operation.requests, hf.cycle]
  | cycleWith observe => simp [Machine.perform, Operation.requests, hf.cycleWith]
  | run budget => simp [Machine.perform, Operation.requests, hf.run]
  | runUntilHalt limit => simp [Machine.perform, Operation.requests, hf.runUntilHalt]
  | request k => exact m.request_eq_raise k
  | _ => cases hd

theorem Stopped.play (h : m.Stopped) {ops : List (Operation α)}
    (hd : ∀ op ∈ ops, op.drives = true) :
    m.play ops = m.raise (ops.any (·.requests .hardware)) (ops.any (·.requests .software)) := by
  induction ops generalizing m with
  | nil => exact m.raise_false.symm
  | cons op rest ih =>
    have hop := h.perform (hd op List.mem_cons_self)
    have hrest := fun op hm => hd op (List.mem_cons_of_mem _ hm)
    rw [Machine.play, hop, ih (h.raise _ _) hrest, raise_raise]
    rfl

/-- **Where a machine stands still.** A cycle does not advance the machine in three cases
exactly. With a failure stored or the program over it changes nothing; where it finds a byte
no family declares it leaves the state an interrupt leaves, and that failure, the only kind
a cycle stores. From then on cycles, runs and requests only raise latches. -/
theorem standstill (m : Machine) :
    (m.cycle.1 = false ↔ m.failure ≠ none ∨ m.Halted ∨ m.Undecodable) ∧
    (m.failure ≠ none ∨ m.Halted → m.cycle.2 = m) ∧
    (m.Undecodable → m.cycle.2 = m.stalled ∧ m.cpu.SameData m.stalled.cpu ∧
      (m.cpu.pendingInterrupt = none → m.stalled.cpu = m.cpu)) ∧
    (m.failure = none → m.cycle.2.failure ≠ none → m.Undecodable) ∧
    (m.cycle.1 = false → ∀ {α : Type} (ops : List (Operation α)),
      (∀ op ∈ ops, op.drives = true) →
        (m.cycle.2.play ops).Frozen ∧
        m.cycle.2.play ops = m.cycle.2.raise (ops.any (·.requests .hardware))
          (ops.any (·.requests .software))) := by
  refine ⟨?_, ?_, ?_, undecodable_of_failure, ?_⟩
  · rw [cycle_eq_false_iff, Stopped, or_assoc]
  · intro h
    rw [Stopped.cycle h]
  · intro h
    rw [h.cycle]
    exact ⟨rfl, m.cpu.sameData_takeInterrupt, Cpu.takeInterrupt_of_none⟩
  · intro h α ops hd
    have hs := stopped_of_cycle h
    have hp := hs.play hd
    refine ⟨?_, hp⟩
    rw [hp]
    exact (hs.raise _ _).frozen

end Machine

end Nmos6502
