import Nmos6502.Proofs.Operation
import Nmos6502.Proofs.Snapshot.Codec

/-! A restored machine goes on as the captured one would.

A snapshot is a machine's whole state, but not the instruction it began last nor its
failure. Restoring clears both. The instruction is never looked at again: two machines that
are `Alike` in all else answer every operation alike and stay alike (`Alike.perform`), so
after restoring nothing tells the machine from the captured one with its failure cleared
(`snapshot_resumes`). -/
namespace Nmos6502.Machine

/-- Equal but for the instruction begun last. -/
structure Alike (m n : Machine) : Prop where
  cpu : m.cpu = n.cpu
  failure : m.failure = n.failure

namespace Alike
variable {α : Type} {m n : Machine}

theorem refl (m : Machine) : m.Alike m := ⟨rfl, rfl⟩

/-! ### Cycles and runs -/

theorem tick (h : m.Alike n) : m.tick.Alike n.tick := ⟨congrArg Cpu.tick h.cpu, h.failure⟩

theorem cycle (h : m.Alike n) : m.cycle.1 = n.cycle.1 ∧ m.cycle.2.Alike n.cycle.2 := by
  have hp : m.phase = n.phase := by
    unfold phase
    rw [h.cpu, h.failure]
  have hb : m.begin = n.begin := by
    unfold begin
    rw [h.cpu]
  unfold Machine.cycle
  rw [hp, hb]
  cases n.phase with
  | failed | halted => exact ⟨rfl, h⟩
  | draining => exact ⟨rfl, h.tick⟩
  | boundary => exact ⟨rfl, refl _⟩

theorem run (h : m.Alike n) (budget : Nat) :
    (m.run budget).1 = (n.run budget).1 ∧ (m.run budget).2.Alike (n.run budget).2 := by
  induction budget generalizing m n with
  | zero => exact ⟨rfl, h⟩
  | succ budget ih =>
    obtain ⟨hc, hm⟩ := h.cycle
    obtain ⟨hr, hn⟩ := ih hm
    rw [run_succ, run_succ, hc]
    by_cases ha : n.cycle.1 = true
    · rw [if_pos ha, if_pos ha, hr]
      exact ⟨rfl, hn⟩
    · rw [if_neg ha, if_neg ha]
      exact ⟨rfl, hm⟩

theorem runUntilHalt (h : m.Alike n) (limit : Nat) :
    (m.runUntilHalt limit).1 = (n.runUntilHalt limit).1 ∧
      (m.runUntilHalt limit).2.Alike (n.runUntilHalt limit).2 := by
  obtain ⟨hr, hn⟩ := h.run limit
  unfold Machine.runUntilHalt
  simp only [hr, hn.cpu, hn.failure]
  cases (n.run limit).2.failure with
  | some failure => exact ⟨rfl, hn⟩
  | none =>
    cases (n.run limit).2.cpu.isMidInstruction || (n.run limit).2.cpu.isRunning <;>
      exact ⟨rfl, hn⟩

/-! ### Every operation -/

theorem load (h : m.Alike n) (image : Option (List Byte)) :
    (m.load image).1 = (n.load image).1 ∧ (m.load image).2.Alike (n.load image).2 := by
  cases image with
  | none => exact ⟨rfl, h⟩
  | some image =>
    simp only [Machine.load]
    cases Memory.ofList image with
    | error e => exact ⟨rfl, h⟩
    | ok memory => exact ⟨rfl, refl _⟩

theorem request (h : m.Alike n) (k : Interrupt) : (m.request k).Alike (n.request k) := by
  cases k with
  | hardware => exact ⟨congrArg (fun s : Cpu => {s with hardwareRequest := true}) h.cpu, h.failure⟩
  | software => exact ⟨congrArg (fun s : Cpu => {s with softwareRequest := true}) h.cpu, h.failure⟩

/-- What is asked of machines that are alike, they answer alike, and are alike after it. -/
theorem perform (h : m.Alike n) (op : Operation α) :
    (m.perform op).1 = (n.perform op).1 ∧ (m.perform op).2.Alike (n.perform op).2 := by
  cases op with
  | cycle =>
    obtain ⟨hc, hn⟩ := h.cycle
    exact ⟨congrArg Answer.cycled hc, hn⟩
  | cycleWith observe =>
    obtain ⟨hc, hn⟩ := h.cycle
    refine ⟨?_, hn⟩
    show Answer.observed m.cycle.1 (observe m.cycle.2.cpu) =
      .observed n.cycle.1 (observe n.cycle.2.cpu)
    rw [hc, hn.cpu]
  | run budget =>
    obtain ⟨hr, hn⟩ := h.run budget
    exact ⟨congrArg Answer.ran hr, hn⟩
  | runUntilHalt limit =>
    obtain ⟨hr, hn⟩ := h.runUntilHalt limit
    exact ⟨congrArg Answer.ranUntilHalt hr, hn⟩
  | takeInterrupt => exact ⟨rfl, congrArg Cpu.takeInterrupt h.cpu, h.failure⟩
  | request k => exact ⟨rfl, h.request k⟩
  | load image =>
    obtain ⟨hl, hn⟩ := h.load image
    exact ⟨congrArg Answer.loaded hl, hn⟩
  | reset =>
    have hr : m.reset = n.reset := by
      unfold Machine.reset
      rw [h.cpu]
    refine ⟨rfl, ?_⟩
    show m.reset.Alike n.reset
    rw [hr]
    exact refl _
  | restore snapshot => exact ⟨rfl, rfl, rfl⟩
  | clearFailure => exact ⟨rfl, h.cpu, rfl⟩
  | save =>
    have hs : m.save = n.save := by
      unfold Machine.save
      rw [h.cpu]
    exact ⟨congrArg Answer.saved hs, h⟩
  | snapshot =>
    have hs : m.snapshot = n.snapshot := congrArg Snapshot.ofCpu h.cpu
    exact ⟨congrArg Answer.captured hs, h⟩

theorem history (h : m.Alike n) (ops : List (Operation α)) : m.history ops = n.history ops := by
  induction ops generalizing m n with
  | nil => rfl
  | cons op rest ih =>
    obtain ⟨ha, hn⟩ := h.perform op
    simp only [Machine.history, ha, hn.cpu, hn.failure, ih hn]

end Alike

/-- **A snapshot resumes a machine exactly.** Its bytes are read back, and restoring it gives
the captured state whatever machine it is restored to; from there every sequence of
operations is answered as by the captured machine with its failure cleared, and leaves the
same states and failures on the way. -/
theorem snapshot_resumes (m m₀ : Machine) :
    ∃ s, Snapshot.decode m.snapshot.encode = .ok s ∧ (m₀.restore s).cpu = m.cpu ∧
      (∀ m₁ : Machine, m₁.restore s = m₀.restore s) ∧
      ∀ {α : Type} (ops : List (Operation α)),
        (m₀.restore s).history ops = m.clearFailure.history ops := by
  have hd : Snapshot.decode m.snapshot.encode = .ok m.snapshot := by
    have h := m.snapshot.decode_encode_append []
    rwa [List.append_nil] at h
  have hs : (m₀.restore m.snapshot).cpu = m.cpu := Snapshot.toCpu_ofCpu m.cpu
  refine ⟨m.snapshot, hd, hs, fun m₁ => rfl, ?_⟩
  intro α ops
  have h : (m₀.restore m.snapshot).Alike m.clearFailure := ⟨hs, rfl⟩
  exact h.history ops

end Nmos6502.Machine
