import Nmos6502.Proofs.Standstill
import Nmos6502.Proofs.Timing

/-! Runs of many cycles.

A machine either advances on every cycle or on so many of them and then stands still for
good (`StopsAfter`). That number tells what a run does: it uses up its budget, or it ends
one cycle past the last that advances (`run_of_advances`, `run_of_stopsAfter`). So it does
not matter where a run is cut in two (`run_add`), a step is the run of one instruction
(`Begins.step`), and a run to the halt address ends in one of three ways according to how the
number compares with the limit (`Ending`). -/
namespace Nmos6502.Machine

variable {m : Machine} {n t : Nat}

/-- The first so many cycles all advance the machine. -/
def Advances (m : Machine) (n : Nat) : Prop := ∀ j < n, (m.after j).cycle.1 = true

/-- So many cycles advance the machine, and the one after them does not. -/
structure StopsAfter (m : Machine) (t : Nat) : Prop where
  advances : m.Advances t
  stops : (m.after t).cycle.1 = false

theorem advances_or_stopsAfter (m : Machine) (n : Nat) :
    m.Advances n ∨ ∃ t < n, m.StopsAfter t := by
  induction n with
  | zero => exact .inl nofun
  | succ n ih =>
    rcases ih with ha | ⟨t, ht, hs⟩
    · cases hc : (m.after n).cycle.1 with
      | false => exact .inr ⟨n, Nat.lt_succ_self n, ha, hc⟩
      | true =>
        refine .inl fun j hj => ?_
        rcases Nat.lt_succ_iff_lt_or_eq.mp hj with hj | rfl
        · exact ha j hj
        · exact hc
    · exact .inr ⟨t, Nat.lt_succ_of_lt ht, hs⟩

theorem StopsAfter.advances_iff (h : m.StopsAfter t) : m.Advances n ↔ n ≤ t := by
  constructor
  · intro ha
    apply Nat.le_of_not_lt
    intro hlt
    have hc := ha t hlt
    rw [h.stops] at hc
    cases hc
  · exact fun hn j hj => h.advances j (Nat.lt_of_lt_of_le hj hn)

theorem Advances.add {a b : Nat} (h : m.Advances a) (h' : (m.after a).Advances b) :
    m.Advances (a + b) := by
  intro j hj
  by_cases hja : j < a
  · exact h j hja
  · obtain ⟨k, rfl⟩ := Nat.exists_eq_add_of_le (Nat.le_of_not_lt hja)
    rw [after_add]
    exact h' k (Nat.lt_of_add_lt_add_left hj)

/-- While cycles are left they can be spent. -/
theorem advances_draining (hf : m.failure = none) (hn : n ≤ m.cpu.cyclesLeft.toNat) :
    m.Advances n := by
  intro j hj
  have hjn : j < m.cpu.cyclesLeft.toNat := Nat.lt_of_lt_of_le hj hn
  rw [after_draining hf (Nat.le_of_lt hjn), cycle_drained hf hjn]

theorem Begins.advances {i : Instruction} {s : Cpu} (h : m.Begins i s) :
    m.Advances (m.cost i) := by
  intro j hj
  rw [h.cycle_after hj]

/-! ### What a cycle keeps -/

/-- The counter counts the cycles that advance the machine. -/
theorem totalCycles_cycle (m : Machine) :
    m.cycle.2.cpu.totalCycles = m.cpu.totalCycles + BitVec.ofNat 64 m.cycle.1.toNat := by
  have hs := m.cpu.sameData_takeInterrupt.totalCycles
  cases m.outcome with
  | failed _ heq | halted _ heq =>
    rw [heq]
    exact (BitVec.add_zero _).symm
  | draining _ _ heq =>
    rw [heq]
    rfl
  | boundary _ how =>
    cases how with
    | vectored _ heq =>
      rw [heq, ← hs]
      rfl
    | undeclared _ heq =>
      rw [heq, ← hs]
      exact (BitVec.add_zero _).symm
    | retired i t hb heq =>
      have ht : t.totalCycles = m.cpu.takeInterrupt.totalCycles :=
        congrArg Ledger.totalCycles (Cpu.ledger_instruct hb.fetch hb.instruct)
      rw [heq, ← hs, ← ht]
      rfl

/-- A machine that has just advanced has no failure. -/
theorem failure_of_cycle (h : m.cycle.1 = true) : m.cycle.2.failure = none := by
  cases m.outcome with
  | failed _ heq | halted _ heq =>
    rw [heq] at h
    cases h
  | draining hf _ heq =>
    rw [heq]
    exact hf
  | boundary _ how =>
    cases how with
    | undeclared _ heq =>
      rw [heq] at h
      cases h
    | vectored _ heq | retired _ _ _ heq => rw [heq]

theorem failure_after (hf : m.failure = none) (h : m.Advances n) : (m.after n).failure = none := by
  cases n with
  | zero => exact hf
  | succ n => exact failure_of_cycle (h n (Nat.lt_succ_self n))

/-- A machine without a failure stops at the halt address or where it cannot fetch. -/
theorem StopsAfter.halted_or_undecodable (h : m.StopsAfter t) (hf : m.failure = none) :
    (m.after t).Halted ∨ (m.after t).Undecodable := by
  rcases cycle_eq_false_iff.mp h.stops with (hn | hh) | hu
  · exact absurd (failure_after hf h.advances) hn
  · exact .inl hh
  · exact .inr hu

/-! ### Runs -/

/-- A run may be cut in two anywhere. -/
theorem run_add (m : Machine) (a b : Nat) :
    m.run (a + b) = ((m.run a).1 + ((m.run a).2.run b).1, ((m.run a).2.run b).2) := by
  induction a generalizing m with
  | zero => simp
  | succ a ih =>
    rw [Nat.succ_add, run_succ, run_succ]
    cases hc : m.cycle.1 with
    | true =>
      simp only [if_true, ih]
      rw [Nat.add_right_comm]
    | false =>
      -- the second part finds the machine stopped
      have hstill := (stopped_of_cycle hc).frozen.run b
      simp only [Bool.false_eq_true, if_false, hstill]

/-- What every cycle keeps, every run keeps. -/
theorem run_keeps {P : Machine → Prop} (hc : ∀ m, P m → P m.cycle.2) (h : P m) (n : Nat) :
    P (m.run n).2 := by
  induction n generalizing m with
  | zero => exact h
  | succ n ih =>
    rw [run_succ]
    split
    · exact ih (hc m h)
    · exact hc m h

theorem run_of_advances (h : m.Advances n) : m.run n = (n, m.after n) := by
  induction n with
  | zero => rfl
  | succ n ih =>
    have hn : m.run n = (n, m.after n) := ih fun j hj => h j (Nat.lt_succ_of_lt hj)
    have hc : (m.after n).cycle.1 = true := h n (Nat.lt_succ_self n)
    rw [run_add, hn, run_succ, if_pos hc]
    rfl

theorem run_of_stopsAfter (h : m.StopsAfter t) (hn : t < n) :
    m.run n = (t, (m.after t).cycle.2) := by
  obtain ⟨k, rfl⟩ := Nat.exists_eq_add_of_lt hn
  have hc : ¬ (m.after t).cycle.1 = true := by simp [h.stops]
  rw [Nat.add_assoc, run_add, run_of_advances h.advances, run_succ, if_neg hc]
  rfl

theorem totalCycles_run (m : Machine) (n : Nat) :
    (m.run n).2.cpu.totalCycles = m.cpu.totalCycles + BitVec.ofNat 64 (m.run n).1 := by
  induction n generalizing m with
  | zero => exact (BitVec.add_zero _).symm
  | succ n ih =>
    have hc := m.totalCycles_cycle
    rw [run_succ]
    cases ha : m.cycle.1 with
    | true =>
      rw [ha] at hc
      simp only [if_true, ih, hc, Bool.toNat_true]
      rw [BitVec.add_assoc, ← BitVec.ofNat_add, Nat.add_comm]
    | false =>
      rw [ha] at hc
      exact hc

/-! ### Steps -/

/-- A step that begins with a cycle that advances spends all that are left after it. -/
theorem step_of_cycle (h : m.cycle.1 = true) :
    m.step = (m.cycle.2.cpu.cyclesLeft.toNat + 1,
      m.cycle.2.drained m.cycle.2.cpu.cyclesLeft.toNat) := by
  have hf := failure_of_cycle h
  have hcycle : m.cycle = (true, m.cycle.2) := Prod.ext h rfl
  have hrun := run_of_advances (advances_draining hf (Nat.le_refl _))
  rw [step, hcycle]
  show runFrom 1 m.cycle.2.cpu.cyclesLeft.toNat m.cycle.2 = _
  rw [runFrom_eq, hrun, after_draining hf (Nat.le_refl _), Nat.add_comm]

/-- **A step is an instruction.** Where one begins, a step takes the cycles that it costs, with
those of an interrupt served before it, and leaves what it leaves. -/
theorem Begins.step {i : Instruction} {s : Cpu} (h : m.Begins i s) :
    m.step = (m.cost i, m.during i s (m.cost i)) := by
  obtain ⟨n, hcost⟩ := h.exists_cost_eq
  have hleft : (m.during i s 1).cpu.cyclesLeft.toNat = n := by
    rw [h.cyclesLeft_during, hcost, Nat.add_sub_cancel]
  have hcycle := h.cycle_eq_during
  rw [step_of_cycle (congrArg Prod.fst hcycle), hcycle, hleft, h.drained_during 1 (by omega),
    hcost, Nat.add_comm]

/-! ### Runs to the halt address -/

theorem halted_iff : m.Halted ↔
    m.failure = none ∧ (m.cpu.isMidInstruction || m.cpu.isRunning) = false := by
  constructor
  · intro h
    simp [h.failure, h.cyclesLeft, h.halted, Cpu.isMidInstruction, Cpu.isRunning]
  · rintro ⟨hf, hr⟩
    simp only [Cpu.isMidInstruction, Cpu.isRunning, Bool.or_eq_false_iff, bne_eq_false_iff_eq] at hr
    exact ⟨hf, hr.1, hr.2⟩

/-- A run to the halt address is a run of its limit, and counts what that counts. -/
theorem runUntilHalt_run (m : Machine) (limit : Nat) :
    (m.runUntilHalt limit).2 = (m.run limit).2 ∧
      ∀ t, (m.runUntilHalt limit).1 = .ok t → t = (m.run limit).1 := by
  simp only [runUntilHalt]
  cases (m.run limit).2.failure with
  | some f => exact ⟨rfl, fun t ht => by cases ht⟩
  | none =>
    dsimp only
    split
    · exact ⟨rfl, fun t ht => by cases ht⟩
    · exact ⟨rfl, fun t ht => (Except.ok.inj ht).symm⟩

theorem runUntilHalt_of_failed {limit : Nat} {f : Failure}
    (h : (m.run limit).2.failure = some f) :
    m.runUntilHalt limit = (.error (.failed f), (m.run limit).2) := by
  simp only [runUntilHalt, h]

/-- A limit that is met is answered and not stored. -/
theorem failure_of_cycleLimit {limit l : Nat}
    (h : (m.runUntilHalt limit).1 = .error (.cycleLimit l)) :
    (m.runUntilHalt limit).2.failure = none := by
  cases hf : (m.run limit).2.failure with
  | none => rw [(m.runUntilHalt_run limit).1, hf]
  | some f =>
    rw [runUntilHalt_of_failed hf] at h
    cases h

theorem runUntilHalt_of_halted {limit : Nat} (h : (m.run limit).2.Halted) :
    m.runUntilHalt limit = (.ok (m.run limit).1, (m.run limit).2) := by
  obtain ⟨hf, hr⟩ := halted_iff.mp h
  simp only [runUntilHalt, hf, hr]
  rfl

theorem runUntilHalt_of_unhalted {limit : Nat} (hf : (m.run limit).2.failure = none)
    (h : ¬ (m.run limit).2.Halted) :
    m.runUntilHalt limit = (.error (.cycleLimit limit), (m.run limit).2) := by
  have hr : ((m.run limit).2.cpu.isMidInstruction || (m.run limit).2.cpu.isRunning) = true :=
    (Bool.not_eq_false _).mp fun hn => h (halted_iff.mpr ⟨hf, hn⟩)
  simp only [runUntilHalt, hf, hr, if_true]

/-- The limit is met with the program still going: it would advance, or fail, if it went on. -/
def Cut (m : Machine) (limit : Nat) : Prop :=
  m.Advances (limit + 1) ∨ m.StopsAfter limit ∧ (m.after limit).Undecodable

theorem StopsAfter.runUntilHalt_halted {limit : Nat} (hs : m.StopsAfter t) (hle : t ≤ limit)
    (hh : (m.after t).Halted) : m.runUntilHalt limit = (.ok t, m.after t) := by
  have hr : m.run limit = (t, m.after t) := by
    rcases Nat.lt_or_eq_of_le hle with hlt | rfl
    · rw [run_of_stopsAfter hs hlt, cycle_of_halted hh.phase]
    · exact run_of_advances hs.advances
  rw [runUntilHalt_of_halted (by rw [hr]; exact hh), hr]

theorem StopsAfter.runUntilHalt_failed {limit : Nat} {f : Failure} (hs : m.StopsAfter t)
    (hlt : t < limit) (hf : (m.after t).cycle.2.failure = some f) :
    m.runUntilHalt limit = (.error (.failed f), (m.after t).cycle.2) := by
  have hr := run_of_stopsAfter hs hlt
  rw [runUntilHalt_of_failed (by rw [hr]; exact hf), hr]

theorem Cut.runUntilHalt {limit : Nat} (h : m.Cut limit) :
    m.runUntilHalt limit = (.error (.cycleLimit limit), m.after limit) := by
  have ha : m.Advances limit := by
    rcases h with ha | ⟨hs, -⟩
    · exact fun j hj => ha j (Nat.lt_succ_of_lt hj)
    · exact hs.advances
  have hn : (m.after limit).failure = none ∧ ¬ (m.after limit).Halted := by
    rcases h with ha | ⟨-, hu⟩
    · have hc : ¬ (m.after limit).Stopped := fun hs => by
        have hc := ha limit (Nat.lt_succ_self limit)
        rw [hs.cycle] at hc
        cases hc
      exact ⟨Decidable.not_not.mp fun hf => hc (.inl hf), fun hh => hc (.inr hh)⟩
    · exact ⟨hu.failure, fun hh => hu.running hh.halted⟩
  have hr := run_of_advances ha
  rw [runUntilHalt_of_unhalted (by rw [hr]; exact hn.1) (by rw [hr]; exact hn.2), hr]

/-- How a run to the halt address ends, and its answer. -/
inductive Ending (m : Machine) (limit : Nat) : Prop where
  | halted (t : Nat) (stops : m.StopsAfter t) (le : t ≤ limit) (halted : (m.after t).Halted)
      (answer : (m.runUntilHalt limit).1 = .ok t)
  | failed (t : Nat) (f : Failure) (stops : m.StopsAfter t) (lt : t < limit)
      (undecodable : (m.after t).Undecodable) (stored : (m.after t).cycle.2.failure = some f)
      (answer : (m.runUntilHalt limit).1 = .error (.failed f))
  | cut (cut : m.Cut limit) (answer : (m.runUntilHalt limit).1 = .error (.cycleLimit limit))

theorem ending (hf : m.failure = none) (limit : Nat) : m.Ending limit := by
  have hcut (h : m.Cut limit) : m.Ending limit := .cut h (by rw [h.runUntilHalt])
  rcases m.advances_or_stopsAfter (limit + 1) with ha | ⟨t, hlt, hs⟩
  · exact hcut (.inl ha)
  · rcases hs.halted_or_undecodable hf with hh | hu
    · have hle := Nat.le_of_lt_succ hlt
      exact .halted t hs hle hh (by rw [hs.runUntilHalt_halted hle hh])
    · rcases Nat.lt_succ_iff_lt_or_eq.mp hlt with hlt | rfl
      · obtain ⟨f, hst⟩ : ∃ f, (m.after t).cycle.2.failure = some f := by
          rw [hu.cycle]
          exact ⟨_, rfl⟩
        exact .failed t f hs hlt hu hst (by rw [hs.runUntilHalt_failed hlt hst])
      · exact hcut (.inr ⟨hs, hu⟩)

/-- What the answer of a run to the halt address tells. -/
structure Classified (m : Machine) (limit : Nat) : Prop where
  halted : ∀ t, (m.runUntilHalt limit).1 = .ok t ↔
    m.StopsAfter t ∧ t ≤ limit ∧ (m.after t).Halted
  failed : ∀ f, (m.runUntilHalt limit).1 = .error (.failed f) ↔
    ∃ t < limit, m.StopsAfter t ∧ (m.after t).Undecodable ∧ (m.after t).cycle.2.failure = some f
  limited : ∀ l, (m.runUntilHalt limit).1 = .error (.cycleLimit l) ↔ l = limit ∧
    (m.Advances (limit + 1) ∨ m.StopsAfter limit ∧ (m.after limit).Undecodable)

theorem classified (hf : m.failure = none) (limit : Nat) : m.Classified limit := by
  have hend := m.ending hf limit
  refine ⟨fun t => ⟨fun h => ?_, fun ⟨hs, hle, hh⟩ => ?_⟩,
    fun f => ⟨fun h => ?_, fun ⟨t, hlt, hs, _, hst⟩ => ?_⟩,
    fun l => ⟨fun h => ?_, fun ⟨hl, hc⟩ => ?_⟩⟩
  · cases hend with
    | halted u hs hle hh answer =>
      cases answer.symm.trans h
      exact ⟨hs, hle, hh⟩
    | failed _ _ _ _ _ _ answer | cut _ answer => cases answer.symm.trans h
  · rw [hs.runUntilHalt_halted hle hh]
  · cases hend with
    | failed t g hs hlt hu hst answer =>
      cases answer.symm.trans h
      exact ⟨t, hlt, hs, hu, hst⟩
    | halted _ _ _ _ answer | cut _ answer => cases answer.symm.trans h
  · rw [hs.runUntilHalt_failed hlt hst]
  · cases hend with
    | cut hc answer =>
      cases answer.symm.trans h
      exact ⟨rfl, hc⟩
    | halted _ _ _ _ answer | failed _ _ _ _ _ _ answer => cases answer.symm.trans h
  · rw [Cut.runUntilHalt hc, hl]

/-- A stored failure is the answer of every run to the halt address. -/
theorem runUntilHalt_of_failure {f : Failure} (hf : m.failure = some f) (limit : Nat) :
    m.runUntilHalt limit = (.error (.failed f), m) := by
  have hs : m.Stopped := .inl (by simp [hf])
  rw [hs.frozen.runUntilHalt, hf]

/-- One answer of a run that gets to the halt address tells all of them. -/
theorem runUntilHalt_of_ok {limit : Nat} (h : (m.runUntilHalt limit).1 = .ok t) :
    (∀ l ≥ t, m.runUntilHalt l = (.ok t, m.after t)) ∧
      ∀ l < t, m.runUntilHalt l = (.error (.cycleLimit l), m.after l) := by
  have hf : m.failure = none := by
    cases hf : m.failure with
    | none => rfl
    | some f =>
      rw [runUntilHalt_of_failure hf] at h
      cases h
  obtain ⟨hs, -, hh⟩ := ((m.classified hf limit).halted t).mp h
  refine ⟨fun l hl => hs.runUntilHalt_halted hl hh, fun l hl => ?_⟩
  exact Cut.runUntilHalt (.inl (hs.advances_iff.mpr hl))

/-- **Runs may be cut and limits raised.** A run in two parts is the run of both budgets, and
the counter counts what a run answers. A run to the halt address tells how many cycles
advance the machine and what stopped it, as far as its limit lets it see; once it gets there,
the limit does not matter down to that number of cycles, and any lower limit is met. -/
theorem runs_classified (m : Machine) :
    (∀ a b, m.run (a + b) = ((m.run a).1 + ((m.run a).2.run b).1, ((m.run a).2.run b).2)) ∧
    (∀ n, (m.run n).2.cpu.totalCycles = m.cpu.totalCycles + BitVec.ofNat 64 (m.run n).1 ∧
      (m.cpu.totalCycles.toNat + (m.run n).1 < 1 <<< 64 →
        (m.run n).2.cpu.totalCycles.toNat = m.cpu.totalCycles.toNat + (m.run n).1)) ∧
    (∀ limit, (m.runUntilHalt limit).2 = (m.run limit).2 ∧
      ∀ t, (m.runUntilHalt limit).1 = .ok t → t = (m.run limit).1) ∧
    (m.failure = none → ∀ limit, m.Classified limit) ∧
    (∀ limit t, (m.runUntilHalt limit).1 = .ok t →
      (∀ l ≥ t, m.runUntilHalt l = (.ok t, m.after t)) ∧
      ∀ l < t, m.runUntilHalt l = (.error (.cycleLimit l), m.after l)) ∧
    ∀ f, m.failure = some f → ∀ limit, m.runUntilHalt limit = (.error (.failed f), m) := by
  refine ⟨m.run_add, fun n => ⟨m.totalCycles_run n, fun hlt => ?_⟩, m.runUntilHalt_run,
    m.classified, fun limit t => runUntilHalt_of_ok, fun f => runUntilHalt_of_failure⟩
  rw [Nat.one_shiftLeft] at hlt
  rw [totalCycles_run, BitVec.toNat_add, BitVec.toNat_ofNat, Nat.add_mod_mod, Nat.mod_eq_of_lt hlt]

end Nmos6502.Machine
