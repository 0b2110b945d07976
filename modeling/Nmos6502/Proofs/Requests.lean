import Nmos6502.Proofs.Cycle
import Nmos6502.Proofs.Operation

/-! How requests are served.

A request raises a latch and waits there. Only a boundary looks at the latches, and serves
at most one interrupt before it goes on with an instruction: `Machine.served` says which,
and `Cpu.resume` is the rest of the boundary. Between boundaries a cycle neither reads nor
changes a latch, so it does not matter when a request comes, how often, or in what order
with others (`Machine.feed_between`). -/
namespace Nmos6502

namespace Cpu

/-- Serve an interrupt and lower both latches, or serve none. -/
def serve (s : Cpu) : Option Interrupt → Cpu
  | none => s
  | some k => {s.enter k with hardwareRequest := false, softwareRequest := false}

/-- The rest of a boundary, once interrupts have been looked for: the cycle that begins the
instruction at the program counter. -/
def resume (s : Cpu) : Bool × Machine :=
  if s.isRunning then
    match s.fetch, s.instruct with
    | .ok i, .ok t => (true, ⟨(t.charge i.encoding.cycles).tick, some i, none⟩)
    | .error cause, _ | _, .error cause => (false, ⟨s, none, some ⟨s.registers.pc, cause⟩⟩)
  else (true, ⟨s.tick, none, none⟩)

theorem takeInterrupt_eq_serve (s : Cpu) : s.takeInterrupt = s.serve s.pendingInterrupt := by
  unfold takeInterrupt
  cases s.pendingInterrupt <;> rfl

theorem pendingInterrupt_eq_hardware_iff (s : Cpu) :
    s.pendingInterrupt = some .hardware ↔ s.hardwareRequest = true := by
  unfold pendingInterrupt
  cases s.hardwareRequest <;> cases s.softwareRequest <;> cases s.flags.interruptDisable <;> decide

theorem pendingInterrupt_eq_software_iff (s : Cpu) :
    s.pendingInterrupt = some .software ↔ s.hardwareRequest = false ∧ s.softwareRequest = true ∧
      s.flags.interruptDisable = false := by
  unfold pendingInterrupt
  cases s.hardwareRequest <;> cases s.softwareRequest <;> cases s.flags.interruptDisable <;> decide

@[simp] theorem takeInterrupt_hardwareRequest (s : Cpu) :
    s.takeInterrupt.hardwareRequest = false := by
  cases hp : s.pendingInterrupt with
  | some k => rw [takeInterrupt_of_some hp]
  | none =>
    rw [takeInterrupt_of_none hp]
    by_cases hs : s.hardwareRequest = true
    · rw [s.pendingInterrupt_eq_hardware_iff.mpr hs] at hp
      cases hp
    · exact Bool.eq_false_iff.mpr hs

theorem takeInterrupt_softwareRequest (s : Cpu) :
    s.takeInterrupt.softwareRequest = true ↔
      s.softwareRequest = true ∧ s.pendingInterrupt = none := by
  cases hp : s.pendingInterrupt with
  | some k => simp [takeInterrupt_of_some hp]
  | none => simp [takeInterrupt_of_none hp]

/-- An instruction leaves the hardware latch, and raises the software latch if it is the
break instruction. -/
theorem latches_instruct {s t : Cpu} {i : Instruction} (hi : s.fetch = .ok i)
    (ht : s.instruct = .ok t) : t.hardwareRequest = s.hardwareRequest ∧
      t.softwareRequest = (i.encoding.family == .brk || s.softwareRequest) := by
  have hs := ledger_instruct hi ht
  exact ⟨congrArg Ledger.hardwareRequest hs, congrArg Ledger.softwareRequest hs⟩

end Cpu

namespace Machine
variable {m : Machine}

/-! ### One cycle -/

/-- The interrupt that the next cycle serves. -/
def served (m : Machine) : Option Interrupt :=
  if m.phase = .boundary then m.cpu.pendingInterrupt else none

theorem phase_eq_boundary_iff : m.phase = .boundary ↔ m.AtBoundary := by
  constructor
  · intro h
    by_cases hf : m.failure = none
    · by_cases hc : m.cpu.cyclesLeft = 0
      · refine ⟨hf, hc, fun hp => ?_⟩
        rw [Halted.phase ⟨hf, hc, hp⟩] at h
        cases h
      · rw [phase_of_draining hf hc] at h
        cases h
    · rw [phase_of_failed hf] at h
      cases h
  · exact AtBoundary.phase

theorem AtBoundary.served (h : m.AtBoundary) : m.served = m.cpu.pendingInterrupt :=
  if_pos h.phase

theorem served_of_not_atBoundary (h : ¬ m.AtBoundary) : m.served = none :=
  if_neg fun hp => h (phase_eq_boundary_iff.mp hp)

theorem served_eq_some_iff {k : Interrupt} :
    m.served = some k ↔ m.AtBoundary ∧ m.cpu.pendingInterrupt = some k := by
  by_cases h : m.AtBoundary
  · rw [h.served]
    exact ⟨fun hk => ⟨h, hk⟩, And.right⟩
  · rw [served_of_not_atBoundary h]
    exact ⟨nofun, fun hk => absurd hk.1 h⟩

/-- What a boundary does: serve the interrupt to be served, then begin an instruction. -/
theorem AtBoundary.cycle_eq_resume (h : m.AtBoundary) :
    m.cycle = (m.cpu.serve m.served).resume := by
  rw [h.served, ← Cpu.takeInterrupt_eq_serve]
  unfold Cpu.resume Cpu.isRunning
  cases h.beginning with
  | vectored hp heq => simp [heq, hp]
  | undeclared hu heq => simp [heq, hu.vectored, hu.fetch, stalled]
  | retired i t hb heq => simp [heq, hb.vectored, hb.fetch, hb.instruct]

theorem cycle_of_not_atBoundary (h : ¬ m.AtBoundary) :
    m.cycle = (true, m.tick) ∨ m.cycle = (false, m) := by
  cases m.outcome with
  | failed _ heq | halted _ heq => exact .inr heq
  | draining _ _ heq => exact .inl heq
  | boundary hb _ => exact absurd hb h

theorem AtBoundary.hardwareRequest_cycle (h : m.AtBoundary) :
    m.cycle.2.cpu.hardwareRequest = false := by
  have ht := m.cpu.takeInterrupt_hardwareRequest
  cases h.beginning with
  | vectored _ heq | undeclared _ heq =>
    rw [heq]
    exact ht
  | retired i t hb heq =>
    rw [heq]
    exact (Cpu.latches_instruct hb.fetch hb.instruct).1.trans ht

theorem AtBoundary.softwareRequest_cycle (h : m.AtBoundary) :
    m.cycle.2.cpu.softwareRequest = true ↔
      (∃ i, m.cycle.2.current = some i ∧ i.encoding.family = .brk) ∨
        m.cpu.softwareRequest = true ∧ m.served = none := by
  have ht := m.cpu.takeInterrupt_softwareRequest
  rw [h.served, ← ht]
  cases h.beginning with
  | vectored _ heq => simp [heq, Cpu.tick]
  | undeclared _ heq => simp [heq, stalled]
  | retired i t hb heq =>
    have hs := (Cpu.latches_instruct hb.fetch hb.instruct).2
    simp [heq, Cpu.tick, Cpu.charge, hs]

/-! ### Runs -/

/-- What happens to a running machine: a cycle passes or an interrupt is requested. -/
inductive Event where
  | cycle
  | request (k : Interrupt)
deriving DecidableEq

def Event.operation : Event → Operation Unit
  | cycle => .cycle
  | request k => .request k

/-- The machine after some events. -/
def feed (m : Machine) (events : List Event) : Machine := m.play (events.map Event.operation)

@[simp] theorem feed_cycle (m : Machine) (rest : List Event) :
    m.feed (.cycle :: rest) = m.cycle.2.feed rest := rfl

@[simp] theorem feed_request (m : Machine) (k : Interrupt) (rest : List Event) :
    m.feed (.request k :: rest) = (m.request k).feed rest := rfl

theorem feed_append (m : Machine) (a b : List Event) : m.feed (a ++ b) = (m.feed a).feed b := by
  induction a generalizing m with
  | nil => rfl
  | cons e rest ih => cases e <;> exact ih _

/-! ### Between boundaries -/

theorem atBoundary_raise_iff {hardware software : Bool} :
    (m.raise hardware software).AtBoundary ↔ m.AtBoundary := by
  constructor <;> exact fun h => ⟨h.failure, h.cyclesLeft, h.running⟩

/-- Away from a boundary a cycle leaves the latches to requests. -/
theorem cycle_raise (h : ¬ m.AtBoundary) (hardware software : Bool) :
    (m.raise hardware software).cycle = (m.cycle.1, m.cycle.2.raise hardware software) := by
  cases m.outcome with
  | failed hf heq =>
    rw [heq]
    exact cycle_of_failed (phase_of_failed hf)
  | draining hf hc heq =>
    rw [heq]
    exact cycle_of_draining (phase_of_draining hf hc)
  | halted hh heq =>
    rw [heq]
    exact cycle_of_halted (Halted.phase ⟨hh.failure, hh.cyclesLeft, hh.halted⟩)
  | boundary hb _ => exact absurd hb h

theorem after_raise {n : Nat} (h : ∀ j < n, ¬ (m.after j).AtBoundary) (hardware software : Bool) :
    (m.raise hardware software).after n = (m.after n).raise hardware software := by
  induction n with
  | zero => rfl
  | succ n ih =>
    have hn := ih fun j hj => h j (Nat.lt_succ_of_lt hj)
    have hc := cycle_raise (h n (Nat.lt_succ_self n)) hardware software
    show ((m.raise hardware software).after n).cycle.2 = (m.after n).cycle.2.raise hardware software
    rw [hn, hc]

/-- Between boundaries requests come to the same as if they were all made at the end, each
kind once if at all. -/
theorem feed_between {events : List Event}
    (h : ∀ j < events.count .cycle, ¬ (m.after j).AtBoundary) :
    m.feed events = (m.after (events.count .cycle)).raise
      (decide (.request .hardware ∈ events)) (decide (.request .software ∈ events)) := by
  induction events generalizing m with
  | nil => exact m.raise_false.symm
  | cons e rest ih =>
    cases e with
    | cycle =>
      rw [List.count_cons_self] at h ⊢
      have hrest (j : Nat) (hj : j < rest.count .cycle) : ¬ (m.cycle.2.after j).AtBoundary := by
        rw [← after_succ]
        exact h (j + 1) (Nat.succ_lt_succ hj)
      rw [feed_cycle, ih hrest, after_succ]
      simp
    | request k =>
      have hne : Event.request k ≠ .cycle := nofun
      rw [List.count_cons_of_ne hne] at h ⊢
      have hrest (j : Nat) (hj : j < rest.count .cycle) :
          ¬ ((m.request k).after j).AtBoundary := by
        rw [request_eq_raise, after_raise fun l hl => h l (Nat.lt_trans hl hj),
          atBoundary_raise_iff]
        exact h j hj
      rw [feed_request, ih hrest, request_eq_raise, after_raise h, raise_raise]
      cases k <;> simp <;> rfl

/-! ### The protocol -/

/-- What a request and a cycle do about interrupts. -/
structure Protocol (m : Machine) : Prop where
  request : ∀ k, m.request k = m.raise (k == .hardware) (k == .software)
  hardware : m.served = some .hardware ↔ m.AtBoundary ∧ m.cpu.hardwareRequest = true
  software : m.served = some .software ↔ m.AtBoundary ∧ m.cpu.hardwareRequest = false ∧
    m.cpu.softwareRequest = true ∧ m.cpu.flags.interruptDisable = false
  /-- A boundary serves that interrupt and no other, and goes on with an instruction. -/
  boundary : m.AtBoundary → m.cycle = (m.cpu.serve m.served).resume
  hardwareRequest : m.AtBoundary → m.cycle.2.cpu.hardwareRequest = false
  /-- The break instruction may raise the latch in the cycle that lowered it. -/
  softwareRequest : m.AtBoundary → (m.cycle.2.cpu.softwareRequest = true ↔
    (∃ i, m.cycle.2.current = some i ∧ i.encoding.family = .brk) ∨
      m.cpu.softwareRequest = true ∧ m.served = none)
  /-- Any other cycle is spent or does nothing, and leaves the latches. -/
  elsewhere : ¬ m.AtBoundary → (m.cycle = (true, m.tick) ∨ m.cycle = (false, m)) ∧
    m.cycle.2.cpu.hardwareRequest = m.cpu.hardwareRequest ∧
    m.cycle.2.cpu.softwareRequest = m.cpu.softwareRequest

theorem protocol (m : Machine) : m.Protocol where
  request := m.request_eq_raise
  hardware := by
    rw [served_eq_some_iff, Cpu.pendingInterrupt_eq_hardware_iff]
  software := by
    rw [served_eq_some_iff, Cpu.pendingInterrupt_eq_software_iff]
  boundary := AtBoundary.cycle_eq_resume
  hardwareRequest := AtBoundary.hardwareRequest_cycle
  softwareRequest := AtBoundary.softwareRequest_cycle
  elsewhere := by
    intro h
    have hc := cycle_of_not_atBoundary h
    refine ⟨hc, ?_⟩
    rcases hc with heq | heq <;> rw [heq] <;> exact ⟨rfl, rfl⟩

theorem softwareRequest_cycle_of_unserved (hs : m.cpu.softwareRequest = true)
    (hn : m.served = none) : m.cycle.2.cpu.softwareRequest = true := by
  by_cases h : m.AtBoundary
  · exact h.softwareRequest_cycle.mpr (.inr ⟨hs, hn⟩)
  · rcases cycle_of_not_atBoundary h with heq | heq <;> rw [heq] <;> exact hs

theorem softwareRequest_request (hs : m.cpu.softwareRequest = true) (k : Interrupt) :
    (m.request k).cpu.softwareRequest = true := by
  cases k with
  | hardware => exact hs
  | software => rfl

/-- A software request stays in its latch for as long as no cycle serves an interrupt. -/
theorem softwareRequest_feed (hs : m.cpu.softwareRequest = true) {events : List Event}
    (hn : ∀ before, before ++ [.cycle] <+: events → (m.feed before).served = none) :
    (m.feed events).cpu.softwareRequest = true := by
  induction events generalizing m with
  | nil => exact hs
  | cons e rest ih =>
    cases e with
    | cycle =>
      have hm : m.served = none := hn [] (by simp)
      apply ih (softwareRequest_cycle_of_unserved hs hm)
      intro before hb
      exact hn (.cycle :: before) (by simpa using hb)
    | request k =>
      apply ih (softwareRequest_request hs k)
      intro before hb
      exact hn (.request k :: before) (by simpa using hb)

/-- **The interrupt protocol.** Whatever has happened to a machine, its next cycle keeps the
protocol; a software request waits until some cycle serves an interrupt; and what is done
before the next boundary matters only by its number of cycles and by the kinds of interrupts
requested, not by how often, when or in what order. -/
theorem interrupt_protocol (m : Machine) (events : List Event) :
    (m.feed events).Protocol ∧
    (∀ more, (m.feed events).cpu.softwareRequest = true →
      (∀ before, before ++ [.cycle] <+: more → (m.feed (events ++ before)).served = none) →
        (m.feed (events ++ more)).cpu.softwareRequest = true) ∧
    ∀ a b : List Event, a.count .cycle = b.count .cycle →
      (∀ k, .request k ∈ a ↔ .request k ∈ b) →
      (∀ j < a.count .cycle, ¬ ((m.feed events).after j).AtBoundary) →
      ∀ rest, m.feed (events ++ a ++ rest) = m.feed (events ++ b ++ rest) := by
  refine ⟨(m.feed events).protocol, ?_, ?_⟩
  · intro more hs hn
    rw [feed_append]
    apply softwareRequest_feed hs
    intro before hb
    rw [← feed_append]
    exact hn before hb
  · intro a b hc hk hq rest
    have ha := feed_between hq
    rw [hc] at hq ha
    have hb := feed_between hq
    simp only [feed_append, ha, hb, hk]

end Machine

end Nmos6502
