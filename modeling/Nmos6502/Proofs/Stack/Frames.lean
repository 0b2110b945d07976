import Nmos6502.Proofs.Cycle
import Nmos6502.Proofs.Stack.Contents

/-! Frames on the stack.

Six instructions come in pairs, one to save something on the stack and one to put it back: a call
and its return, and the pushes and pulls of the accumulator and of the status byte
(`Bracket`). A `Frame` is what the first of a pair has saved and the second has not put back yet.
However such pairs are nested, and whatever is done between them to anything but the stack
pointer and the bytes of open frames, the bytes stay on the stack in the order they come off
(`Nested.intact`), so the second of a pair always puts back what the first one found
(`Nested.unwinds`). All that is asked for is room: no more than the 256 bytes of the page may be
in frames at a time. -/
namespace Nmos6502

/-- Two instructions, one saving on the stack what the other puts back. -/
inductive Bracket where
  | call
  | accumulator
  | status
deriving DecidableEq, Repr

namespace Bracket

def opening : Bracket → Family
  | call => .jsr
  | accumulator => .pha
  | status => .php

def closing : Bracket → Family
  | call => .rts
  | accumulator => .pla
  | status => .plp

end Bracket

/-- A bracket that was opened in a state, the program counter being past the opening instruction
already. -/
structure Frame where
  bracket : Bracket
  before : Cpu

namespace Frame

/-- The bytes on the stack, in the order they come off. -/
def bytes (f : Frame) : List Byte :=
  match f.bracket with
  | .call => [(f.before.registers.pc - 1).low, (f.before.registers.pc - 1).high]
  | .accumulator => [f.before.registers.a]
  | .status => [f.before.flags.toByte ||| 0x30]

/-- A later state with the frame taken off the stack and what it saved put back. -/
def restored (f : Frame) (s : Cpu) : Cpu :=
  match f.bracket with
  | .call => {s with
      registers.sp := f.before.registers.sp
      registers.pc := f.before.registers.pc}
  | .accumulator => {s with
      registers.sp := f.before.registers.sp
      registers.a := f.before.registers.a
      flags := s.flags.withResult f.before.registers.a}
  | .status => {s with
      registers.sp := f.before.registers.sp
      flags := {f.before.flags with breakCommand := true}}

/-- All that is on the stack in open frames, the one opened last on top. -/
def live (frames : List Frame) : List Byte := frames.flatMap bytes

end Frame

/-- The states on the way through nested brackets, each with the frames open in it, the one opened
last first. -/
inductive Nested (start : Cpu) : List Frame → Cpu → Prop where
  | start : Nested start [] start
  /-- Anything happens that leaves the stack pointer and the bytes of open frames. -/
  | between {frames : List Frame} {s t : Cpu} (nested : Nested start frames s)
      (pointer : t.registers.sp = s.registers.sp)
      (kept : t.stack.top (Frame.live frames).length = s.stack.top (Frame.live frames).length) :
      Nested start frames t
  | opened {frames : List Frame} {s t : Cpu} (b : Bracket) (operand : Word)
      (nested : Nested start frames s) (room : (Frame.live (⟨b, s⟩ :: frames)).length ≤ 256)
      (execute : b.opening.execute operand s = .ok () t) : Nested start (⟨b, s⟩ :: frames) t
  | closed {frames : List Frame} {f : Frame} {s t : Cpu} (operand : Word)
      (nested : Nested start (f :: frames) s)
      (execute : f.bracket.closing.execute operand s = .ok () t) : Nested start frames t

namespace Frame
variable {f : Frame} {frames : List Frame} {bottom : Byte} {stack : Stack}

/-- The stack pointer is where the open frames put it. -/
def Chained (bottom : Byte) : List Frame → Byte → Prop
  | [], pointer => pointer = bottom
  | f :: frames, pointer =>
    pointer + BitVec.ofNat 8 f.bytes.length = f.before.registers.sp ∧
      Chained bottom frames f.before.registers.sp

/-- The open frames are on the stack as they were saved. -/
structure Intact (bottom : Byte) (frames : List Frame) (stack : Stack) : Prop where
  chained : Chained bottom frames stack.pointer
  top : stack.top (live frames).length = live frames

/-! ### Pushes and pulls -/

theorem Intact.push (h : Intact bottom frames stack) {v : Byte} (hb : f.bytes = [v])
    (hsp : f.before.registers.sp = stack.pointer) (room : (live frames).length < 256) :
    Intact bottom (f :: frames) (stack.push v) := by
  have hlive : live (f :: frames) = v :: live frames := congrArg (· ++ live frames) hb
  refine ⟨⟨?_, hsp ▸ h.chained⟩, ?_⟩
  · rw [hb, hsp]
    exact BitVec.sub_add_cancel _ _
  · rw [hlive, List.length_cons, Stack.top_push _ _ room, h.top]

theorem Intact.pushWord (h : Intact bottom frames stack) {w : Word}
    (hb : f.bytes = [w.low, w.high]) (hsp : f.before.registers.sp = stack.pointer)
    (room : (live frames).length + 1 < 256) :
    Intact bottom (f :: frames) (stack.pushWord w) := by
  have hlive : live (f :: frames) = w.low :: w.high :: live frames :=
    congrArg (· ++ live frames) hb
  have htwice : stack.pointer - 1 - 1 + 2 = stack.pointer := by bv_omega
  refine ⟨⟨?_, hsp ▸ h.chained⟩, ?_⟩
  · rw [hb, hsp]
    exact htwice
  · rw [hlive, List.length_cons, List.length_cons, Stack.top_pushWord _ _ room, h.top]

theorem Intact.pull (h : Intact bottom (f :: frames) stack) {v : Byte} (hb : f.bytes = [v]) :
    stack.pull = (v, ⟨stack.memory, f.before.registers.sp⟩) ∧
      Intact bottom frames ⟨stack.memory, f.before.registers.sp⟩ := by
  obtain ⟨hsp, hchained⟩ := h.chained
  have htop := h.top
  have hlive : live (f :: frames) = v :: live frames := congrArg (· ++ live frames) hb
  rw [hlive, List.length_cons] at htop
  obtain ⟨hv, hrest⟩ := Stack.pull_of_top htop
  have hpull : stack.pull.2 = ⟨stack.memory, f.before.registers.sp⟩ := by
    rw [← hsp, hb]
    rfl
  rw [hpull] at hrest
  exact ⟨Prod.ext hv hpull, hchained, hrest⟩

theorem Intact.pullWord (h : Intact bottom (f :: frames) stack) {w : Word}
    (hb : f.bytes = [w.low, w.high]) :
    stack.pullWord = (w, ⟨stack.memory, f.before.registers.sp⟩) ∧
      Intact bottom frames ⟨stack.memory, f.before.registers.sp⟩ := by
  obtain ⟨hsp, hchained⟩ := h.chained
  have htop := h.top
  have hlive : live (f :: frames) = w.low :: w.high :: live frames :=
    congrArg (· ++ live frames) hb
  rw [hlive, List.length_cons, List.length_cons] at htop
  obtain ⟨hw, hrest⟩ := Stack.pullWord_of_top htop
  rw [Word.ofBytes_low_high] at hw
  have htwice : stack.pointer + 1 + 1 = stack.pointer + 2 := by bv_omega
  have hpull : stack.pullWord.2 = ⟨stack.memory, f.before.registers.sp⟩ := by
    rw [← hsp, hb]
    exact congrArg (Stack.mk stack.memory) htwice
  rw [hpull] at hrest
  exact ⟨Prod.ext hw hpull, hchained, hrest⟩

/-! ### One instruction -/

variable {s t : Cpu}

theorem Intact.opened (h : Intact bottom frames s.stack) (b : Bracket) {operand : Word}
    (room : (live (⟨b, s⟩ :: frames)).length ≤ 256)
    (ht : b.opening.execute operand s = .ok () t) : Intact bottom (⟨b, s⟩ :: frames) t.stack := by
  cases b with
  | call =>
    cases ht
    exact h.pushWord (w := s.registers.pc - 1) rfl rfl room
  | accumulator =>
    cases ht
    exact h.push (v := s.registers.a) rfl rfl room
  | status =>
    cases ht
    exact h.push (v := s.flags.toByte ||| 0x30) rfl rfl room

theorem Intact.closed (h : Intact bottom (f :: frames) s.stack) (operand : Word) :
    f.bracket.closing.execute operand s = .ok () (f.restored s) ∧
      Intact bottom frames (f.restored s).stack := by
  obtain ⟨b, before⟩ := f
  cases b with
  | call =>
    obtain ⟨hpull, hrest⟩ := h.pullWord (w := before.registers.pc - 1) rfl
    have hs : s.returnFromCall = restored ⟨.call, before⟩ s := by
      show {s.withStack s.stack.pullWord.2 with registers.pc := s.stack.pullWord.1 + 1} = _
      rw [hpull, BitVec.sub_add_cancel]
      rfl
    exact ⟨congrArg (EStateM.Result.ok ()) hs, hrest⟩
  | accumulator =>
    obtain ⟨hpull, hrest⟩ := h.pull (v := before.registers.a) rfl
    have hs : s.pullA = restored ⟨.accumulator, before⟩ s := by
      show (s.withStack s.stack.pull.2).loadA s.stack.pull.1 = _
      rw [hpull]
      rfl
    exact ⟨congrArg (EStateM.Result.ok ()) hs, hrest⟩
  | status =>
    obtain ⟨hpull, hrest⟩ := h.pull (v := before.flags.toByte ||| 0x30) rfl
    have hs : s.pullStatus = restored ⟨.status, before⟩ s := by
      show {s.withStack s.stack.pull.2 with flags := .ofByte s.stack.pull.1} = _
      rw [hpull, Flags.ofByte_toByte_or]
      rfl
    exact ⟨congrArg (EStateM.Result.ok ()) hs, hrest⟩

end Frame

/-! ### Whole histories -/

namespace Nested
variable {start s : Cpu} {f : Frame} {frames : List Frame}

/-- Open frames are intact wherever a history has got to. -/
theorem intact (h : Nested start frames s) :
    Frame.Intact start.registers.sp frames s.stack := by
  induction h with
  | start => exact ⟨rfl, rfl⟩
  | @between frames _ t _ pointer kept ih =>
    have hchained : Frame.Chained start.registers.sp frames t.registers.sp :=
      pointer ▸ ih.chained
    exact ⟨hchained, kept.trans ih.top⟩
  | opened b _ _ room execute ih => exact ih.opened b room execute
  | closed operand _ execute ih =>
    obtain ⟨hclose, hrest⟩ := ih.closed operand
    cases hclose.symm.trans execute
    exact hrest

/-- With every frame closed the stack pointer is back. -/
theorem sp_eq (h : Nested start [] s) : s.registers.sp = start.registers.sp :=
  h.intact.chained

/-- **Frames unwind.** Wherever a history has got to, the instruction that closes the frame opened
last puts back what its opening instruction found, the stack pointer with it. For a call that is
the address three past the calling instruction. -/
theorem unwinds (h : Nested start (f :: frames) s) (operand : Word) :
    f.bracket.closing.execute operand s = .ok () (f.restored s) ∧
      (f.restored s).registers.sp = f.before.registers.sp ∧
      Nested start frames (f.restored s) ∧
      ∀ (caller : Cpu) (i : Instruction), f.bracket = .call → caller.fetch = .ok i →
        i.encoding.family = .jsr → f.before = i.take caller →
          (f.restored s).registers.pc = caller.registers.pc + 3 := by
  obtain ⟨b, before⟩ := f
  have hclose := (h.intact.closed operand).1
  refine ⟨hclose, ?_, h.closed operand hclose, ?_⟩
  · cases b <;> rfl
  · rintro caller i rfl hfetch hjsr rfl
    obtain ⟨-, haddress, -⟩ := Instruction.fetch_eq_ok_iff.mp hfetch
    have hsize : i.encoding.size = 3 := by
      have he := Instruction.mem_encodings_of_fetch hfetch
      rw [hjsr] at he
      rw [List.mem_singleton.mp he]
      rfl
    show i.address + BitVec.ofNat 16 i.encoding.size = _
    rw [haddress, hsize]
    rfl

/-- The caller of a subroutine in the last three bytes of memory, on a stack about to wrap. -/
def lastCaller : Cpu :=
  {Cpu.powerOn (Memory.zero.writeBytes 0xFFFD [0x20]) with
    registers := ⟨0x41, 0, 0, 0x00, 0xFFFD⟩
    flags.carry := true}

theorem lastCaller_fetch :
    lastCaller.fetch = .ok ⟨0xFFFD, ⟨0x20, .jsr, .absolute, 6, true⟩, 0⟩ := by
  have hopcode : lastCaller.memory.read 0xFFFD = 0x20 := Memory.read_write_self _ _ _
  have hoperand : Instruction.operandAt lastCaller.memory 0xFFFE 2 = 0 := by
    show (Memory.zero.write 0xFFFD 0x20).readWord 0xFFFE = 0
    rw [Memory.readWord_write_of_ne _ _ (by decide) (by decide)]
    simp only [Memory.readWord, Memory.read_zero]
    rfl
  refine Instruction.fetch_eq_ok_iff.mpr ⟨?_, rfl, hoperand.symm⟩
  show Encoding.ofOpcode? (lastCaller.memory.read 0xFFFD) = _
  rw [hopcode]
  decide

/-- The call returns to the bottom of memory, past a status byte saved and restored around a
change of everything saved. -/
theorem lastCaller_unwinds : ∃ (i : Instruction) (s t : Cpu),
    lastCaller.fetch = .ok i ∧ Nested (i.take lastCaller) [⟨.call, i.take lastCaller⟩] s ∧
      Family.rts.execute 0 s = .ok () t ∧ t.registers.pc = 0 ∧ t.registers.sp = 0 ∧
      t.flags = {Flags.clear with carry := true, breakCommand := true} ∧ t.registers.a = 0x42 := by
  let before := Instruction.take ⟨0xFFFD, ⟨0x20, .jsr, .absolute, 6, true⟩, 0⟩ lastCaller
  let inside := before.call 0
  have hcalled : Nested before [⟨.call, before⟩] inside :=
    Nested.start.opened .call 0 (by decide) rfl
  have hsaved : Nested before [⟨.status, inside⟩, ⟨.call, before⟩] inside.pushStatus :=
    hcalled.opened .status 0 (by decide) rfl
  have hchanged : Nested before [⟨.status, inside⟩, ⟨.call, before⟩]
      {inside.pushStatus with registers.a := 0x42, flags := .clear} :=
    hsaved.between rfl rfl
  obtain ⟨-, -, hback, -⟩ := hchanged.unwinds 0
  obtain ⟨hreturn, hsp, -, hpc⟩ := hback.unwinds 0
  exact ⟨_, _, _, lastCaller_fetch, hback, hreturn, hpc lastCaller _ rfl lastCaller_fetch rfl rfl,
    hsp, rfl, rfl⟩

end Nested

end Nmos6502
