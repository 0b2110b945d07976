import Nmos6502.Proofs.Access
import Nmos6502.Proofs.Requests
import Nmos6502.Proofs.Timing

/-! What a cycle looks at.

The footprint of a cycle is every address that it reads or writes: at a boundary the vector and
the frame of an interrupt it serves, the bytes of the instruction it begins, the pointer of the
operand, the operand and what is pushed or pulled; at any other time nothing
(`Machine.footprint`). Memory outside it takes no part: to change a byte there and let the cycle
pass is to let the cycle pass and change the byte (`Machine.cycle_poke`), and so it is over many
cycles (`Machine.after_poke`). -/
namespace Nmos6502

/-! ### Operands -/

namespace Location

/-- Where the pointer of a location lies, if it goes through one. -/
def pointer : Location → List Word
  | indirect p => [p, .ofBytes (p + 1).low p.high]
  | indexedIndirect p index => [(p + index).toWord, (p + index + 1).toWord]
  | indirectIndexed p _ => [p.toWord, (p + 1).toWord]
  | zeroPage _ | zeroPageIndexed _ _ | absolute _ | absoluteIndexed _ _ => []

/-- A location is found by its pointer and by no other byte. -/
theorem target_write {l : Location} {a : Word} (h : a ∉ l.pointer) (m : Memory) (v : Byte) :
    l.target (m.write a v) = l.target m := by
  cases l with
  | zeroPage | zeroPageIndexed | absolute | absoluteIndexed => rfl
  | indirect | indexedIndirect | indirectIndexed =>
    simp only [pointer, List.mem_cons, List.not_mem_nil, or_false, not_or] at h
    simp only [target, Memory.readWordInPage, Memory.readZeroPageWord,
      Memory.read_write_of_ne _ _ h.1, Memory.read_write_of_ne _ _ h.2]

end Location

namespace Cpu

/-- Put a byte into memory from outside. -/
def poke (s : Cpu) (address : Word) (value : Byte) : Cpu :=
  s.withMemory (s.memory.write address value)

/-- The addresses that the way to an operand goes through. -/
def pointer (s : Cpu) (mode : AddressingMode) (operand : Word) : List Word :=
  match mode.location? s.registers operand with
  | none => []
  | some l => l.pointer

/-- The address of an operand in memory. -/
def cell (s : Cpu) (mode : AddressingMode) (operand : Word) : List Word :=
  match s.effectiveAddress mode operand with
  | .error _ => []
  | .ok target => [target.address]

variable {s : Cpu} {mode : AddressingMode} {operand a : Word} {v : Byte}

theorem effectiveAddress_poke (h : a ∉ s.pointer mode operand) (v : Byte) :
    (s.poke a v).effectiveAddress mode operand = s.effectiveAddress mode operand := by
  have hs : (s.poke a v).location mode operand = s.location mode operand := rfl
  unfold effectiveAddress
  rw [hs]
  unfold pointer at h
  unfold location
  split <;> rename_i hl
  · rw [hl] at h
    exact congrArg Except.ok (Location.target_write h s.memory v)
  · rfl

/-- A byte that is poked in beside a place and beside the way to it. -/
def Beside (s : Cpu) (a : Word) : Place → Prop
  | .accumulator => True
  | .cell l => a ∉ l.pointer ∧ a ≠ (l.target s.memory).address

theorem beside_of_place {p : Place} (hp : s.place mode operand = .ok p)
    (hpointer : a ∉ s.pointer mode operand) (hcell : a ∉ s.cell mode operand) : s.Beside a p := by
  cases mode <;> cases hp <;>
    first | trivial | exact ⟨hpointer, fun h => hcell (List.mem_singleton.mpr h)⟩

theorem get_poke {p : Place} (h : s.Beside a p) (v : Byte) : (s.poke a v).get p = s.get p := by
  cases p with
  | accumulator => rfl
  | cell l =>
    show (s.memory.write a v).fetch l = s.memory.fetch l
    simp only [Memory.fetch, Location.target_write h.1, Memory.read_write_of_ne _ _ h.2]

theorem put_poke {p : Place} (h : s.Beside a p) (v b : Byte) :
    (s.poke a v).put p b = (s.put p b).poke a v := by
  cases p with
  | accumulator => rfl
  | cell l =>
    have hm : (s.memory.write a v).store l b = (s.memory.store l b).write a v := by
      simp only [Memory.store, Location.target_write h.1, Memory.write_comm _ _ _ h.2]
    show s.withMemory ((s.memory.write a v).store l b) = _
    rw [hm]
    rfl

theorem readOperand_poke (hpointer : a ∉ s.pointer mode operand)
    (hcell : a ∉ s.cell mode operand) (v : Byte) :
    (s.poke a v).readOperand mode operand = s.readOperand mode operand := by
  cases hp : s.place mode operand with
  | error fault => cases mode <;> first | rfl | cases hp
  | ok p =>
    have hp' : (s.poke a v).place mode operand = .ok p := hp
    rw [readOperand_of_place hp, readOperand_of_place hp',
      get_poke (beside_of_place hp hpointer hcell)]

end Cpu

/-! ### Instructions -/

namespace Access
variable {access : Access} {mode : AddressingMode} {operand a : Word} {s t : Cpu}

theorem use_poke {use : Byte → Cpu → Cpu}
    (hu : ∀ v s, (∀ memory, use v (Cpu.withMemory s memory) = (use v s).withMemory memory))
    (b : Byte) (s : Cpu) (a : Word) (v : Byte) : use b (s.poke a v) = (use b s).poke a v := by
  have hs : use b s = (use b s).withMemory s.memory := hu b s s.memory
  have hm : (use b s).memory = s.memory := by
    rw [hs]
    rfl
  rw [Cpu.poke, hu, Cpu.poke, hm]

theorem base_poke (hpointer : a ∉ s.pointer mode operand) (v : Byte) :
    base (s.poke a v).memory mode operand = base s.memory mode operand := by
  unfold base
  split <;> rename_i hm
  · subst hm
    obtain ⟨hlow, hhigh⟩ : a ≠ operand.low.toWord ∧ a ≠ (operand.low + 1).toWord := by
      simpa [Cpu.pointer, Location.pointer, AddressingMode.location?] using hpointer
    show Memory.readZeroPageWord (s.memory.write a v) operand.low = _
    simp only [Memory.readZeroPageWord, Memory.read_write_of_ne _ _ hlow,
      Memory.read_write_of_ne _ _ hhigh]
  · rfl

/-- Whether an access reads or writes the operand itself and does not just go there. -/
def touches : Access → Bool
  | jump => false
  | _ => true

theorem Done.poke (h : access.Done mode operand s t) (hd : access.Detached)
    (hpointer : a ∉ s.pointer mode operand)
    (hcell : access.touches = true → a ∉ s.cell mode operand) (v : Byte) :
    access.perform mode operand (s.poke a v) = .ok () (t.poke a v) := by
  cases h with
  | @read pays use b crossed found =>
    have hr := (Cpu.readOperand_poke hpointer (hcell rfl) v).trans found
    have hu := use_poke (fun v s => (hd v s).1) b
    simp only [perform, hr]
    split
    · exact congrArg _ (hu (s.charge 1) a v)
    · exact congrArg _ (hu s a v)
  | @modify op use b crossed p found place =>
    have hr := (Cpu.readOperand_poke hpointer (hcell rfl) v).trans found
    have hb := Cpu.beside_of_place place hpointer (hcell rfl)
    have hp : Cpu.place {s.poke a v with flags := (op (s.poke a v).flags b).flags} mode operand =
        .ok p := place
    let result := op s.flags b
    have hput : Cpu.put {s.poke a v with flags := result.flags} p result.value =
        (Cpu.put {s with flags := result.flags} p result.value).poke a v :=
      Cpu.put_poke (s := {s with flags := result.flags}) hb v result.value
    simp only [perform, Cpu.modifyOperand, Cpu.writeOperand, hr, hp]
    show EStateM.Result.ok () (use result.value
      (Cpu.put {s.poke a v with flags := result.flags} p result.value)) = _
    rw [hput, use_poke fun v s => (hd v s).1]
  | @store value p place =>
    have hp : (s.poke a v).place mode operand = .ok p := place
    have hb := Cpu.beside_of_place place hpointer (hcell rfl)
    simp only [perform, Cpu.writeOperand, hp, Cpu.put_poke hb]
    rfl
  | @storeMasked value registers target found =>
    have ht := (Cpu.effectiveAddress_poke hpointer v).trans found
    have ha : a ≠ target.address := by
      have hc := hcell rfl
      simpa only [Cpu.cell, found, List.mem_singleton] using hc
    have hm := Memory.write_comm s.memory v
      (value s.registers &&& (base s.memory mode operand).high + 1) ha
    simp only [perform, ht, base_poke hpointer]
    exact congrArg (fun memory => EStateM.Result.ok ()
      {s with memory, registers := registers s.registers}) hm
  | jump found =>
    have ht := (Cpu.effectiveAddress_poke hpointer v).trans found
    simp only [perform, ht]
    rfl
  | rest implicit =>
    simp only [perform, if_pos implicit]
  | @idle b crossed found =>
    have hr := (Cpu.readOperand_poke hpointer (hcell rfl) v).trans found
    have hi : mode ≠ .implicit := by
      rintro rfl
      cases found
    simp only [perform, if_neg hi, hr]
    split <;> rfl

end Access

namespace Cpu
variable {s : Cpu} {a : Word}

theorem push_poke (h : a ≠ Stack.slot s.registers.sp) (v b : Byte) :
    (s.poke a v).push b = (s.push b).poke a v :=
  congrArg (fun memory => {s with memory, registers.sp := s.registers.sp - 1})
    (s.memory.write_comm v b h)

theorem pushWord_poke (h : a ≠ Stack.slot s.registers.sp)
    (h' : a ≠ Stack.slot (s.registers.sp - 1)) (v : Byte) (w : Word) :
    (s.poke a v).pushWord w = (s.pushWord w).poke a v := by
  show ((s.poke a v).push w.high).push w.low = ((s.push w.high).push w.low).poke a v
  rw [push_poke h, push_poke (s := s.push w.high) h']

theorem pull_poke (h : a ≠ Stack.slot (s.registers.sp + 1)) (v : Byte) :
    (s.poke a v).pull = (s.pull.1, s.pull.2.poke a v) :=
  Prod.ext (s.memory.read_write_of_ne v h) rfl

theorem pullWord_poke (h : a ≠ Stack.slot (s.registers.sp + 1))
    (h' : a ≠ Stack.slot (s.registers.sp + 2)) (v : Byte) :
    (s.poke a v).pullWord = (s.pullWord.1, s.pullWord.2.poke a v) := by
  have hsp : s.registers.sp + 2 = s.pull.2.registers.sp + 1 := by
    show _ = s.registers.sp + 1 + 1
    bv_omega
  have hw (u : Cpu) : u.pullWord = (.ofBytes u.pull.1 u.pull.2.pull.1, u.pull.2.pull.2) := rfl
  rw [hw, hw, pull_poke h, pull_poke (s := s.pull.2) (hsp ▸ h')]

theorem branch_poke (condition : Flags → Bool) (operand : Word) (s : Cpu) (a : Word) (v : Byte) :
    branch condition operand (s.poke a v) = (branch condition operand s).poke a v := by
  unfold branch
  by_cases hc : condition s.flags = true
  · have hp : condition (s.poke a v).flags = true := hc
    rw [if_pos hc, if_pos hp]
    rfl
  · have hp : ¬ condition (s.poke a v).flags = true := hc
    rw [if_neg hc, if_neg hp]

end Cpu

namespace Family
variable {f : Family} {mode : AddressingMode} {operand a : Word} {s t : Cpu}

/-- What an instruction reads and writes when it is carried out in a state: what it pushes or
pulls, and otherwise its operand and the way to it. An address to go to is no operand. -/
def footprint (f : Family) (mode : AddressingMode) (operand : Word) (s : Cpu) : List Word :=
  let sp := s.registers.sp
  match f with
  | pha | php => [Stack.slot sp]
  | jsr => [Stack.slot sp, Stack.slot (sp - 1)]
  | pla | plp => [Stack.slot (sp + 1)]
  | rts => [Stack.slot (sp + 1), Stack.slot (sp + 2)]
  | rti => [Stack.slot (sp + 1), Stack.slot (sp + 2), Stack.slot (sp + 3)]
  | jmp => s.pointer mode operand
  | _ => s.pointer mode operand ++ s.cell mode operand

theorem footprint_of_through {access : Access} (h : f.effect = .through access) :
    f.footprint mode operand s =
      s.pointer mode operand ++ if access.touches then s.cell mode operand else [] := by
  cases f <;> cases h <;> first | rfl | exact (List.append_nil _).symm

theorem direct_poke {run : Word → Cpu → Cpu} (h : f.effect = .direct run)
    (ha : a ∉ f.footprint mode operand s) (v : Byte) :
    run operand (s.poke a v) = (run operand s).poke a v := by
  cases f <;> cases h
  case bcc | bcs | beq | bne | bmi | bpl | bvc | bvs => exact Cpu.branch_poke _ operand s a v
  all_goals
    simp only [footprint, List.mem_cons, List.not_mem_nil, or_false, not_or] at ha
  case pha | php => exact Cpu.push_poke ha v _
  case jsr =>
    show {(s.poke a v).pushWord _ with registers.pc := operand} = _
    rw [Cpu.pushWord_poke ha.1 ha.2]
    rfl
  case pla =>
    show (s.poke a v).pull.2.loadA (s.poke a v).pull.1 = _
    rw [Cpu.pull_poke ha]
    rfl
  case plp =>
    show {(s.poke a v).pull.2 with flags := .ofByte (s.poke a v).pull.1} = _
    rw [Cpu.pull_poke ha]
    rfl
  case rts =>
    show Cpu.returnFromCall (s.poke a v) = _
    simp only [Cpu.returnFromCall, Cpu.pullWord_poke ha.1 ha.2]
    rfl
  case rti =>
    have hsp : s.registers.sp + 3 = s.pullWord.2.registers.sp + 1 := by
      show _ = s.registers.sp + 1 + 1 + 1
      bv_omega
    have hstatus : a ≠ Stack.slot (s.pullWord.2.registers.sp + 1) := hsp ▸ ha.2.2
    show Cpu.returnFromInterrupt (s.poke a v) = _
    simp only [Cpu.returnFromInterrupt, Cpu.pullWord_poke ha.1 ha.2.1, Cpu.pull_poke hstatus]
    rfl
  all_goals rfl

theorem execute_poke {e : Encoding} (he : f.encoding? s.opcode = some e)
    (h : f.execute operand s = .ok () t) (ha : a ∉ f.footprint e.mode operand s) (v : Byte) :
    f.execute operand (s.poke a v) = .ok () (t.poke a v) := by
  cases executed h with
  | direct run effect eq => rw [execute_direct effect, eq, direct_poke effect ha]
  | through access e' effect declared done =>
    obtain rfl : e = e' := Option.some.inj (he.symm.trans declared)
    rw [footprint_of_through effect, List.mem_append, not_or] at ha
    refine (execute_through (s := s.poke a v) effect declared operand).trans ?_
    refine done.poke (detached_of_through effect) ha.1 (fun ht => ?_) v
    simpa only [if_pos ht] using ha.2

end Family

namespace Instruction
variable {i : Instruction} {s : Cpu} {a : Word}

/-- The addresses that an instruction is fetched from, its opcode and its operand. -/
def bytes (i : Instruction) : List Word :=
  (List.range i.encoding.size).map fun k => i.address + BitVec.ofNat 16 k

/-- What a fetched instruction reads and writes, read off the state it was fetched in. -/
def footprint (i : Instruction) (s : Cpu) : List Word :=
  i.encoding.family.footprint i.encoding.mode i.operand s

theorem footprint_take (i : Instruction) (s : Cpu) : i.footprint (i.take s) = i.footprint s := by
  have hp : (i.take s).pointer i.encoding.mode i.operand =
      s.pointer i.encoding.mode i.operand := by
    cases hm : i.encoding.mode <;> rfl
  have hc : (i.take s).cell i.encoding.mode i.operand = s.cell i.encoding.mode i.operand := by
    cases hm : i.encoding.mode <;> rfl
  unfold footprint Family.footprint
  rw [hp, hc]
  rfl

theorem ne_of_notMem_bytes (h : a ∉ i.bytes) {k : Nat} (hk : k < i.encoding.size) :
    a ≠ i.address + BitVec.ofNat 16 k := by
  rintro rfl
  exact h (List.mem_map.mpr ⟨k, List.mem_range.mpr hk, rfl⟩)

/-- An operand of so many bytes is found in no others. -/
theorem operandAt_write (m : Memory) {address : Word} {n : Nat} (hn : n ≤ 2)
    (h : ∀ k < n, a ≠ address + BitVec.ofNat 16 k) (v : Byte) :
    operandAt (m.write a v) address n = operandAt m address n := by
  have hlow (hn : 0 < n) : a ≠ address := by simpa using h 0 hn
  obtain rfl | rfl | rfl : n = 0 ∨ n = 1 ∨ n = 2 := by omega
  · rfl
  · exact congrArg Byte.toWord (m.read_write_of_ne v (hlow Nat.one_pos))
  · exact m.readWord_write_of_ne v (hlow Nat.two_pos) (h 1 Nat.one_lt_two)

theorem fetch_write {m : Memory} {address : Word} (hi : fetch m address = .ok i)
    (h : a ∉ i.bytes) (v : Byte) : fetch (m.write a v) address = .ok i := by
  obtain ⟨he, rfl, hw⟩ := fetch_eq_ok_iff.mp hi
  have hopcode : a ≠ i.address := by
    simpa using ne_of_notMem_bytes h (k := 0) (Nat.lt_add_right _ Nat.one_pos)
  have hbytes : i.encoding.mode.operandBytes ≤ 2 := by
    cases i.encoding.mode <;> decide
  have hoperand (k : Nat) (hk : k < i.encoding.mode.operandBytes) :
      a ≠ i.address + 1 + BitVec.ofNat 16 k := by
    rw [BitVec.add_assoc, show (1 : Word) + BitVec.ofNat 16 k = BitVec.ofNat 16 (1 + k) by bv_omega]
    exact ne_of_notMem_bytes h (Nat.add_lt_add_left hk 1)
  refine fetch_eq_ok_iff.mpr ⟨?_, rfl, ?_⟩
  · rw [Memory.read_write_of_ne _ _ hopcode, he]
  · rw [operandAt_write m hbytes hoperand, hw]

end Instruction

namespace Cpu
variable {s t : Cpu} {i : Instruction} {a : Word}

/-- What beginning the instruction at the program counter reads and writes. -/
def instructionFootprint (s : Cpu) : List Word :=
  match s.fetch with
  | .error _ => [s.registers.pc]
  | .ok i => i.bytes ++ i.footprint s

theorem instruct_poke (hi : s.fetch = .ok i) (ht : s.instruct = .ok t)
    (ha : a ∉ i.bytes ++ i.footprint s) (v : Byte) :
    (s.poke a v).fetch = .ok i ∧ (s.poke a v).instruct = .ok (t.poke a v) := by
  rw [List.mem_append, not_or, ← Instruction.footprint_take] at ha
  have hf : (s.poke a v).fetch = .ok i := Instruction.fetch_write hi ha.1 v
  have hd : i.encoding.family.encoding? (i.take s).opcode = some i.encoding :=
    Instruction.encoding?_of_fetch hi
  have hx : i.execute (i.take (s.poke a v)) = .ok () (t.poke a v) :=
    Family.execute_poke hd (execute_of_instruct hi ht) ha.2 v
  exact ⟨hf, by simp only [instruct, hf, hx]⟩

/-! ### Interrupts -/

/-- What the service of an interrupt reads and writes, if one may be served: the vector and
the frame. -/
def serviceFootprint (s : Cpu) : List Word :=
  match s.pendingInterrupt with
  | none => []
  | some k =>
    [k.vector, k.vector + 1, Stack.slot s.registers.sp, Stack.slot (s.registers.sp - 1),
      Stack.slot (s.registers.sp - 2)]

theorem enter_poke {k : Interrupt} (hlow : a ≠ k.vector) (hhigh : a ≠ k.vector + 1)
    (hstatus : a ≠ Stack.slot s.registers.sp) (hpc : a ≠ Stack.slot (s.registers.sp - 1))
    (hpc' : a ≠ Stack.slot (s.registers.sp - 2)) (v : Byte) :
    (s.poke a v).enter k = (s.enter k).poke a v := by
  let broken : Cpu := {s with flags.breakCommand := k.isBreak}
  let framed : Cpu := (broken.push broken.flags.toByte).pushWord s.registers.pc
  have hframed : ((broken.poke a v).push broken.flags.toByte).pushWord s.registers.pc =
      framed.poke a v := by
    have hsp : s.registers.sp - 2 = s.registers.sp - 1 - 1 := by bv_omega
    rw [push_poke (s := broken) hstatus]
    exact pushWord_poke (s := broken.push _) hpc (hsp ▸ hpc') v _
  have hvector : (framed.poke a v).memory.readWord k.vector = framed.memory.readWord k.vector :=
    framed.memory.readWord_write_of_ne v hlow hhigh
  show {((broken.poke a v).push broken.flags.toByte).pushWord s.registers.pc with
    flags.interruptDisable := true
    registers.pc := (((broken.poke a v).push broken.flags.toByte).pushWord
      s.registers.pc).memory.readWord k.vector
    cyclesLeft := BitVec.ofNat 32 Interrupt.cycles} = _
  rw [hframed, hvector]
  rfl

theorem takeInterrupt_poke (h : a ∉ s.serviceFootprint) (v : Byte) :
    (s.poke a v).takeInterrupt = s.takeInterrupt.poke a v := by
  have hpending : (s.poke a v).pendingInterrupt = s.pendingInterrupt := rfl
  unfold serviceFootprint at h
  cases hk : s.pendingInterrupt with
  | none => rw [takeInterrupt_of_none hk, takeInterrupt_of_none (hpending.trans hk)]
  | some k =>
    simp only [hk, List.mem_cons, List.not_mem_nil, or_false, not_or] at h
    obtain ⟨hlow, hhigh, hstatus, hpc, hpc'⟩ := h
    rw [takeInterrupt_of_some hk, takeInterrupt_of_some (hpending.trans hk),
      enter_poke hlow hhigh hstatus hpc hpc']
    rfl

end Cpu

/-! ### Cycles -/

/-- Put a byte into memory from outside. -/
def Machine.poke (m : Machine) (address : Word) (value : Byte) : Machine :=
  {m with cpu := m.cpu.poke address value}

theorem Cpu.resume_poke {s : Cpu} {a : Word}
    (ha : s.isRunning = true → a ∉ s.instructionFootprint) (v : Byte) :
    (s.poke a v).resume = (s.resume.1, s.resume.2.poke a v) := by
  have hrunning : (s.poke a v).isRunning = s.isRunning := rfl
  unfold resume
  rw [hrunning]
  by_cases hr : s.isRunning = true
  · rw [if_pos hr, if_pos hr]
    have ha := ha hr
    unfold instructionFootprint at ha
    rcases s.fetch_or_undeclared with ⟨i, hi⟩ | ⟨hd, hi⟩
    · obtain ⟨t, ht, -⟩ := instruct_spec hi
      simp only [hi] at ha
      obtain ⟨hi', ht'⟩ := instruct_poke hi ht ha v
      simp only [hi, ht, hi', ht']
      rfl
    · simp only [hi, List.mem_singleton] at ha
      have hopcode : (s.memory.write a v).read s.registers.pc = s.memory.read s.registers.pc :=
        s.memory.read_write_of_ne v ha
      have hi' : (s.poke a v).fetch = .error (.unknownOpcode (s.memory.read s.registers.pc)) :=
        Instruction.fetch_eq_error_iff.mpr ⟨hopcode ▸ hd, congrArg _ hopcode.symm⟩
      simp only [hi, hi']
      rfl
  · rw [if_neg hr, if_neg hr]
    rfl

namespace Machine
variable {m : Machine} {a : Word}

/-- What a cycle reads and writes: at a boundary what the service of an interrupt does, then,
unless that leads to the halt address, what beginning an instruction does. -/
def footprint (m : Machine) : List Word :=
  if m.phase = .boundary then
    m.cpu.serviceFootprint ++
      if m.cpu.takeInterrupt.isRunning then m.cpu.takeInterrupt.instructionFootprint else []
  else []

theorem atBoundary_poke_iff {v : Byte} : (m.poke a v).AtBoundary ↔ m.AtBoundary := by
  constructor <;> exact fun h => ⟨h.failure, h.cyclesLeft, h.running⟩

theorem footprint_of_not_atBoundary (h : ¬m.AtBoundary) : m.footprint = [] :=
  if_neg fun hp => h (phase_eq_boundary_iff.mp hp)

theorem AtBoundary.footprint_of_vectored (h : m.AtBoundary)
    (halt : m.cpu.takeInterrupt.registers.pc = Cpu.haltAddress) :
    m.footprint = m.cpu.serviceFootprint := by
  simp [footprint, h.phase, Cpu.isRunning, halt]

theorem Undecodable.footprint (h : m.Undecodable) :
    m.footprint = m.cpu.serviceFootprint ++ [m.cpu.takeInterrupt.registers.pc] := by
  simp [Machine.footprint, h.phase, Cpu.isRunning, h.vectored, Cpu.instructionFootprint, h.fetch]

theorem Begins.footprint {i : Instruction} {t : Cpu} (h : m.Begins i t) :
    m.footprint =
      m.cpu.serviceFootprint ++ (i.bytes ++ i.footprint m.cpu.takeInterrupt) := by
  simp [Machine.footprint, h.phase, Cpu.isRunning, h.vectored, Cpu.instructionFootprint, h.fetch]

theorem AtBoundary.cycle_poke (h : m.AtBoundary) (ha : a ∉ m.footprint) (v : Byte) :
    (m.poke a v).cycle = (m.cycle.1, m.cycle.2.poke a v) := by
  have hb : (m.poke a v).AtBoundary := atBoundary_poke_iff.mpr h
  simp only [footprint, h.phase, if_true, List.mem_append, not_or] at ha
  rw [h.cycle_eq_resume, h.served, ← Cpu.takeInterrupt_eq_serve, hb.cycle_eq_resume, hb.served,
    ← Cpu.takeInterrupt_eq_serve]
  show ((m.cpu.poke a v).takeInterrupt).resume = _
  rw [Cpu.takeInterrupt_poke ha.1]
  refine Cpu.resume_poke (fun hr => ?_) v
  simpa only [hr, if_true] using ha.2

theorem cycle_poke (ha : a ∉ m.footprint) (v : Byte) :
    (m.poke a v).cycle = (m.cycle.1, m.cycle.2.poke a v) := by
  cases m.outcome with
  | failed hf heq =>
    rw [heq]
    exact cycle_of_failed (phase_of_failed hf)
  | draining hf hc heq =>
    rw [heq]
    exact cycle_of_draining (phase_of_draining hf hc)
  | halted hh heq =>
    rw [heq]
    exact cycle_of_halted (Halted.phase ⟨hh.failure, hh.cyclesLeft, hh.halted⟩)
  | boundary hb _ => exact hb.cycle_poke ha v

/-- A byte that none of the cycles looks at can be changed before them or after them. -/
theorem after_poke {n : Nat} (ha : ∀ k < n, a ∉ (m.after k).footprint) (v : Byte) :
    (m.poke a v).after n = (m.after n).poke a v := by
  induction n with
  | zero => rfl
  | succ n ih =>
    have hn := cycle_poke (ha n n.lt_succ_self) v
    show ((m.poke a v).after n).cycle.2 = _
    rw [ih fun k hk => ha k (Nat.lt_succ_of_lt hk), hn]
    rfl

/-- **A cycle is local.** A byte outside the footprint may be changed before the cycle or after
it: the answer, the state, the instruction begun and the failure are the same, and so are they
over any number of cycles. The footprint is empty but at a boundary, where it is that of the
interrupt served and, unless this leads to the halt address, of the instruction fetched after it:
its own bytes and what it reads and writes, or its one byte if no family declares it. -/
theorem cycle_local (m : Machine) :
    (∀ a, a ∉ m.footprint → ∀ v, (m.poke a v).cycle = (m.cycle.1, m.cycle.2.poke a v)) ∧
    (∀ n a, (∀ k < n, a ∉ (m.after k).footprint) →
      ∀ v, (m.poke a v).after n = (m.after n).poke a v) ∧
    (¬m.AtBoundary → m.footprint = []) ∧
    (m.AtBoundary → m.cpu.takeInterrupt.registers.pc = Cpu.haltAddress →
      m.footprint = m.cpu.serviceFootprint) ∧
    (m.Undecodable →
      m.footprint = m.cpu.serviceFootprint ++ [m.cpu.takeInterrupt.registers.pc]) ∧
    ∀ i t, m.Begins i t →
      m.footprint = m.cpu.serviceFootprint ++ (i.bytes ++ i.footprint m.cpu.takeInterrupt) :=
  ⟨fun _ ha => cycle_poke ha, fun _ _ ha => after_poke ha, footprint_of_not_atBoundary,
    AtBoundary.footprint_of_vectored, Undecodable.footprint, fun _ _ => Begins.footprint⟩

/-- The address before indexing is next to what the interrupted load looks at, and outside it. -/
theorem interruptedLoad_local :
    interruptedLoad.footprint =
      [0xFFFA, 0xFFFB, 0x01FF, 0x01FE, 0x01FD, 0x0000, 0x0001, 0x0002, 0x0100] ∧
    (interruptedLoad.poke 0x00FF 0x80).cycle =
      (interruptedLoad.cycle.1, interruptedLoad.cycle.2.poke 0x00FF 0x80) := by
  obtain ⟨t, ht, -⟩ := Cpu.instruct_spec interruptedLoad_fetch
  have hb : interruptedLoad.Begins _ t :=
    { failure := rfl
      cyclesLeft := rfl
      running := by decide
      vectored := by rw [interruptedLoad_pc]; decide
      fetch := interruptedLoad_fetch
      instruct := ht }
  have hf : interruptedLoad.footprint =
      [0xFFFA, 0xFFFB, 0x01FF, 0x01FE, 0x01FD, 0x0000, 0x0001, 0x0002, 0x0100] :=
    hb.footprint.trans (by decide +kernel)
  exact ⟨hf, (cycle_local interruptedLoad).1 0x00FF (by rw [hf]; decide) 0x80⟩

end Machine

end Nmos6502
