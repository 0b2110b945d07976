import Nmos6502.Proofs.ForcedService
import Nmos6502.Proofs.Frame
import Nmos6502.Proofs.Requests
import Nmos6502.Proofs.Stack.Contents

/-! Interrupts and the way back from them.

A service leaves three bytes on the stack, the status byte and below it the program counter
(`Cpu.Entered`), and the return takes three bytes off. Whatever a handler does in between, as long
as the stack pointer is back and the three bytes are there (`Cpu.FrameKept`), the return finds the
program counter, the stack pointer and the flags as the service found them, but for the break flag,
which says what kind of interrupt it was. It does not matter if the frame lies across the end of
the stack page.

A break only raises a request. With interrupts enabled and no hardware request before its cycles are
spent (`Machine.Breaks`) it is served at the boundary after them, and the frame holds the address
one past the break. -/
namespace Nmos6502

/-- The bit that stands for no flag is always set. -/
theorem Flags.getLsbD_toByte (f : Flags) : f.toByte.getLsbD 5 = true := by
  obtain ⟨c, z, i, d, b, v, n⟩ := f
  revert c z i d b v n
  decide

namespace Cpu
variable {s t : Cpu} {k : Interrupt}

/-! ### Frames -/

/-- The slots of the frame that an interrupt leaves, in the order they are pushed. -/
def frameSlots (s : Cpu) : List Word :=
  [Stack.slot s.registers.sp, Stack.slot (s.registers.sp - 1), Stack.slot (s.registers.sp - 2)]

/-- The flags that an interrupt saves. -/
def savedFlags (s : Cpu) (k : Interrupt) : Flags := {s.flags with breakCommand := k == .software}

/-- A state just after a service. The bit of the status byte that stands for no flag is set, and
execution goes on at the vector. -/
structure Entered (s : Cpu) (k : Interrupt) (t : Cpu) : Prop where
  reserved : (t.memory.read (Stack.slot s.registers.sp)).getLsbD 5 = true
  status : Flags.ofByte (t.memory.read (Stack.slot s.registers.sp)) = s.savedFlags k
  high : t.memory.read (Stack.slot (s.registers.sp - 1)) = s.registers.pc.high
  low : t.memory.read (Stack.slot (s.registers.sp - 2)) = s.registers.pc.low
  others : ∀ a ∉ s.frameSlots, t.memory.read a = s.memory.read a
  rest : t = {s with
    memory := t.memory
    registers.sp := s.registers.sp - 3
    registers.pc := s.memory.readWord (if k = .software then 0xFFFE else 0xFFFA)
    flags := {s.savedFlags k with interruptDisable := true}
    cyclesLeft := 7}

/-- The stack pointer and the three bytes above it are as they were. -/
structure FrameKept (s t : Cpu) : Prop where
  sp : t.registers.sp = s.registers.sp
  top : t.stack.top 3 = s.stack.top 3

theorem savedFlags_eq (s : Cpu) (k : Interrupt) :
    s.savedFlags k = {s.flags with breakCommand := k.isBreak} := by
  cases k <;> rfl

theorem stack_enter (k : Interrupt) (s : Cpu) :
    (s.enter k).stack = (s.stack.push (s.savedFlags k).toByte).pushWord s.registers.pc := by
  rw [savedFlags_eq]
  rfl

theorem memory_enter (k : Interrupt) (s : Cpu) : (s.enter k).memory =
    ((s.memory.write (Stack.slot s.registers.sp) (s.savedFlags k).toByte).write
      (Stack.slot (s.registers.sp - 1)) s.registers.pc.high).write
      (Stack.slot (s.registers.sp - 2)) s.registers.pc.low := by
  have htwo : s.registers.sp - 1 - 1 = s.registers.sp - 2 := by bv_omega
  rw [← htwo]
  exact congrArg Stack.memory (s.stack_enter k)

/-- The frame comes off in the order that a return asks for it. -/
theorem top_enter (k : Interrupt) (s : Cpu) : (s.enter k).stack.top 3 =
    [s.registers.pc.low, s.registers.pc.high, (s.savedFlags k).toByte] := by
  rw [stack_enter, Stack.top_pushWord _ _ (by decide), Stack.top_push _ _ (by decide)]
  rfl

theorem entered_enter (k : Interrupt) (s : Cpu) : s.Entered k (s.enter k) := by
  have hne {p q : Byte} (h : p ≠ q) : Stack.slot p ≠ Stack.slot q := mt Stack.slot_inj h
  have hstatus : (s.enter k).memory.read (Stack.slot s.registers.sp) =
      (s.savedFlags k).toByte := by
    rw [memory_enter, Memory.read_write_of_ne _ _ (hne (by bv_omega)),
      Memory.read_write_of_ne _ _ (hne (by bv_omega)), Memory.read_write_self]
  refine ⟨?_, ?_, ?_, ?_, fun a ha => ?_, ?_⟩
  · rw [hstatus, Flags.getLsbD_toByte]
  · rw [hstatus, Flags.ofByte_toByte]
  · rw [memory_enter, Memory.read_write_of_ne _ _ (hne (by bv_omega)), Memory.read_write_self]
  · rw [memory_enter, Memory.read_write_self]
  · simp only [frameSlots, List.mem_cons, List.not_mem_nil, or_false, not_or] at ha
    obtain ⟨hfirst, hsecond, hthird⟩ := ha
    rw [memory_enter, Memory.read_write_of_ne _ _ (Ne.symm hthird),
      Memory.read_write_of_ne _ _ (Ne.symm hsecond), Memory.read_write_of_ne _ _ (Ne.symm hfirst)]
  · have hsp : s.registers.sp - 1 - 1 - 1 = s.registers.sp - 3 := by bv_omega
    have hpc : (s.enter k).registers.pc =
        s.memory.readWord (if k = .software then 0xFFFE else 0xFFFA) := by
      rw [pc_enter]
      cases k <;> rfl
    rw [savedFlags_eq, ← hsp, ← hpc]
    rfl

/-- A return takes three bytes off the stack. -/
theorem returnFromInterrupt_of_top {pc : Word} {status : Byte}
    (h : t.stack.top 3 = [pc.low, pc.high, status]) :
    t.returnFromInterrupt = {t with
      registers.pc := pc
      registers.sp := t.registers.sp + 3
      flags := .ofByte status} := by
  obtain ⟨hpc, hrest⟩ := Stack.pullWord_of_top h
  obtain ⟨hstatus, -⟩ := Stack.pull_of_top hrest
  rw [Word.ofBytes_low_high] at hpc
  have hsp : t.registers.sp + 1 + 1 + 1 = t.registers.sp + 3 := by bv_omega
  rw [← hsp, ← hpc, ← hstatus]
  rfl

/-- Whatever else has changed, a return undoes a service. -/
theorem FrameKept.returns (h : (s.enter k).FrameKept t) (operand : Word) :
    Family.rti.execute operand t = .ok () {t with
      registers.pc := s.registers.pc
      registers.sp := s.registers.sp
      flags := s.savedFlags k} := by
  have htop := h.top.trans (s.top_enter k)
  have hsp : t.registers.sp + 3 = s.registers.sp := by
    rw [h.sp, (s.entered_enter k).rest]
    exact BitVec.sub_add_cancel _ _
  show EStateM.Result.ok () t.returnFromInterrupt = _
  rw [returnFromInterrupt_of_top htop, hsp, Flags.ofByte_toByte]

end Cpu

/-! ### Breaks -/

namespace Machine
variable {m : Machine} {i : Instruction} {t : Cpu} {events : List Event}

/-- A break begun with interrupts enabled, and events that take up the rest of its cycles without a
hardware request. Right before the halt address a break would end the program. -/
structure Breaks (m : Machine) (i : Instruction) (t : Cpu) (events : List Event) : Prop
    extends Begins m i t where
  family : i.encoding.family = .brk
  enabled : m.cpu.takeInterrupt.flags.interruptDisable = false
  address : i.address ≠ 0xFFFE
  count : events.count .cycle = 6
  quiet : .request .hardware ∉ events

/-- With interrupts enabled none was served on the way. -/
theorem Breaks.pendingInterrupt (h : m.Breaks i t events) : m.cpu.pendingInterrupt = none := by
  cases hp : m.cpu.pendingInterrupt with
  | none => rfl
  | some k =>
    have hdisabled : m.cpu.takeInterrupt.flags.interruptDisable = true := by
      rw [Cpu.takeInterrupt_of_some hp]
      rfl
    rw [h.enabled] at hdisabled
    cases hdisabled

theorem Breaks.takeInterrupt (h : m.Breaks i t events) : m.cpu.takeInterrupt = m.cpu :=
  Cpu.takeInterrupt_of_none h.pendingInterrupt

theorem Breaks.encoding (h : m.Breaks i t events) :
    i.encoding = ⟨0x00, .brk, .implicit, 7, true⟩ := by
  have he := Instruction.mem_encodings_of_fetch h.fetch
  rw [h.family] at he
  exact List.mem_singleton.mp he

theorem Breaks.cost (h : m.Breaks i t events) : m.cost i = 7 := by
  unfold Machine.cost serviceCycles
  rw [h.pendingInterrupt, Instruction.penalty, h.encoding]
  rfl

/-- The break has raised the request, and execution would go on after it. -/
theorem Breaks.eq_breakOff (h : m.Breaks i t events) :
    t = Cpu.breakOff {m.cpu with registers.pc := i.address + 1, opcode := 0x00} := by
  have hexec := Cpu.execute_of_instruct h.fetch h.instruct
  rw [h.takeInterrupt] at hexec
  obtain ⟨address, encoding, operand⟩ := i
  obtain rfl : encoding = _ := h.encoding
  cases hexec
  rfl

/-- The rest of its cycles leave the state it left, but for software requests. -/
theorem Breaks.feed (h : m.Breaks i t events) :
    m.cycle.2.feed events =
      (m.during i t 7).raise false (decide (.request .software ∈ events)) := by
  have hspent (j : Nat) (hj : j < events.count .cycle) : ¬ (m.cycle.2.after j).AtBoundary := by
    rw [h.count] at hj
    have hcost : j < m.cost i := by
      rw [h.cost]
      exact Nat.lt_succ_of_lt hj
    intro hb
    rw [← after_succ, h.after_eq_during hcost] at hb
    have hleft : 0 = m.cost i - (j + 1) :=
      (congrArg BitVec.toNat hb.cyclesLeft).symm.trans (h.cyclesLeft_during (j + 1))
    rw [h.cost] at hleft
    omega
  have hlast : m.after 7 = m.during i t 7 := by
    have hafter := h.after_cost
    rwa [h.cost] at hafter
  rw [feed_between hspent, h.count, ← after_succ, hlast, decide_eq_false h.quiet]

theorem Breaks.atBoundary (h : m.Breaks i t events) : (m.cycle.2.feed events).AtBoundary := by
  rw [h.feed, atBoundary_raise_iff]
  refine ⟨rfl, ?_, ?_⟩
  · show BitVec.ofNat 32 (m.cost i - 7) = 0
    rw [h.cost]
    rfl
  · show t.registers.pc ≠ Cpu.haltAddress
    rw [h.eq_breakOff]
    show i.address + 1 ≠ 0xFFFF
    have haddress := h.address
    bv_omega

/-- The break is served at the boundary after it. -/
theorem Breaks.served (h : m.Breaks i t events) :
    (m.cycle.2.feed events).served = some .software := by
  have hlatch : m.cpu.hardwareRequest = false := by
    have hserved := m.cpu.takeInterrupt_hardwareRequest
    rwa [h.takeInterrupt] at hserved
  have henabled := h.enabled
  rw [h.takeInterrupt] at henabled
  rw [served_eq_some_iff]
  refine ⟨h.atBoundary, ?_⟩
  rw [Cpu.pendingInterrupt_eq_software_iff, h.feed, h.eq_breakOff]
  simp [raise, during, Cpu.breakOff, hlatch, henabled]

/-- **A return undoes its interrupt.** A service leaves the status byte and the program counter on
the stack and goes through its vector; from any later state with the stack pointer and these bytes
in place a return gives back program counter, stack pointer and flags, the break flag telling a
software interrupt from a hardware one. A break is served right after it, and the return from there
goes to the address one past it. -/
theorem interrupts_return :
    (∀ (k : Interrupt) (s : Cpu), s.Entered k (s.enter k) ∧
      ∀ t operand, (s.enter k).FrameKept t →
        Family.rti.execute operand t = .ok () {t with
          registers.pc := s.registers.pc
          registers.sp := s.registers.sp
          flags := s.savedFlags k}) ∧
    ∀ (m : Machine) (i : Instruction) (u : Cpu) (events : List Event), m.Breaks i u events →
      (m.cycle.2.feed events).served = some .software ∧
      ∀ t operand, (m.cycle.2.feed events).cpu.takeInterrupt.FrameKept t →
        Family.rti.execute operand t = .ok () {t with
          registers.pc := i.address + 1
          registers.sp := m.cpu.registers.sp
          flags := {m.cpu.flags with breakCommand := true}} := by
  refine ⟨fun k s => ⟨s.entered_enter k, fun _ operand h => h.returns operand⟩, ?_⟩
  intro m i u events h
  refine ⟨h.served, fun t operand hkept => ?_⟩
  have hpending := (served_eq_some_iff.mp h.served).2
  have hframe : ((m.cycle.2.feed events).cpu.enter .software).FrameKept t := by
    rw [Cpu.takeInterrupt_of_some hpending] at hkept
    exact ⟨hkept.sp, hkept.top⟩
  rw [hframe.returns operand, h.feed, h.eq_breakOff]
  rfl

/-- A break on a stack about to wrap. -/
def breaking : Machine :=
  ⟨{Cpu.powerOn .zero with
    registers := ⟨0, 0, 0, 0x01, 0x0600⟩
    flags.carry := true}, none, none⟩

/-- The return finds the frame across the end of the page, whatever its handler has loaded. -/
theorem breaking_returns : ∃ (events : List Event) (t : Cpu),
    .request .software ∈ events ∧
      Family.rti.execute 0 {(breaking.cycle.2.feed events).cpu.takeInterrupt with
        registers.a := 0x42
        flags := .clear} = .ok () t ∧
      t.registers.a = 0x42 ∧ t.registers.sp = 0x01 ∧ t.registers.pc = 0x0601 ∧
      t.flags = {Flags.clear with carry := true, breakCommand := true} := by
  let i : Instruction := ⟨0x0600, ⟨0x00, .brk, .implicit, 7, true⟩, 0⟩
  let events : List Event :=
    [.cycle, .request .software, .cycle, .cycle, .cycle, .cycle, .cycle]
  have hfetch : breaking.cpu.takeInterrupt.fetch = .ok i := by
    refine Instruction.fetch_eq_ok_iff.mpr ⟨?_, rfl, rfl⟩
    show Encoding.ofOpcode? (Memory.zero.read 0x0600) = _
    rw [Memory.read_zero]
    decide
  obtain ⟨u, hu, -⟩ := Cpu.instruct_spec hfetch
  have hbreaks : breaking.Breaks i u events := {
    failure := rfl, cyclesLeft := rfl, running := by decide, vectored := by decide
    fetch := hfetch, instruct := hu, family := rfl, enabled := rfl, address := by decide
    count := rfl, quiet := by decide }
  have hkept (s : Cpu) : s.FrameKept {s with registers.a := 0x42, flags := .clear} := ⟨rfl, rfl⟩
  obtain ⟨-, hreturn⟩ := interrupts_return.2 breaking i u events hbreaks
  exact ⟨events, _, by decide, hreturn _ 0 (hkept _), rfl, rfl, rfl, rfl⟩

end Machine

end Nmos6502
