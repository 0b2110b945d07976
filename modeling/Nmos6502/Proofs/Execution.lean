import Nmos6502.Instruction

/-! Execution and the books a state keeps.

Beside registers, flags, memory and the recorded opcode a state keeps a `Ledger`: the
cycles left, the two requests and the cycle counter. Execution never reads it. It enters
a `penalty` of at most two cycles, and the break instruction enters a software request
(`Ledger.settle`); so on another ledger the same instruction does the same to everything
else (`execute_spec`).

Neither does an instruction fail whose family declares the recorded opcode: every mode a
family declares suits its way of using an operand (`suits_of_mem_encodings`). -/
namespace Nmos6502

/-! ### The ledger -/

structure Ledger where
  cyclesLeft : BitVec 32
  hardwareRequest : Bool
  softwareRequest : Bool
  totalCycles : BitVec 64
deriving DecidableEq

namespace Ledger

def charge (l : Ledger) (cycles : Nat) : Ledger :=
  {l with cyclesLeft := l.cyclesLeft + BitVec.ofNat 32 cycles}

/-- The ledger after an instruction of the family with this penalty. -/
def settle (l : Ledger) (f : Family) (penalty : Nat) : Ledger :=
  {l.charge penalty with softwareRequest := f == .brk || l.softwareRequest}

theorem charge_zero (l : Ledger) : l.charge 0 = l := by
  simp [charge]

theorem settle_of_ne_brk (l : Ledger) {f : Family} (h : f ≠ .brk) (penalty : Nat) :
    l.settle f penalty = l.charge penalty := by
  have hf : (f == .brk) = false := beq_eq_false_iff_ne.mpr h
  simp only [settle, hf, Bool.false_or]
  rfl

theorem settle_charge (l : Ledger) (f : Family) (penalty cycles : Nat) :
    (l.charge cycles).settle f penalty = (l.settle f penalty).charge cycles := by
  simp only [settle, charge, BitVec.add_assoc, BitVec.add_comm (BitVec.ofNat 32 cycles)]

end Ledger

namespace Cpu

def ledger (s : Cpu) : Ledger :=
  ⟨s.cyclesLeft, s.hardwareRequest, s.softwareRequest, s.totalCycles⟩

def withLedger (s : Cpu) (l : Ledger) : Cpu :=
  {s with
    cyclesLeft := l.cyclesLeft
    hardwareRequest := l.hardwareRequest
    softwareRequest := l.softwareRequest
    totalCycles := l.totalCycles}

@[simp] theorem withLedger_ledger (s : Cpu) : s.withLedger s.ledger = s := rfl

@[simp] theorem withLedger_withLedger (s : Cpu) (l k : Ledger) :
    (s.withLedger l).withLedger k = s.withLedger k := rfl

theorem charge_eq (s : Cpu) (cycles : Nat) :
    s.charge cycles = s.withLedger (s.ledger.charge cycles) := rfl

@[simp] theorem charge_zero (s : Cpu) : s.charge 0 = s := by
  rw [charge_eq, Ledger.charge_zero, withLedger_ledger]

/-- Whether the index carries the address onto another page, in the modes that index a
full address. -/
def leavesPage (s : Cpu) (mode : AddressingMode) (operand : Word) : Bool :=
  match mode with
  | .absoluteX => operand.crossesPage (operand + s.registers.x.toWord)
  | .absoluteY => operand.crossesPage (operand + s.registers.y.toWord)
  | .indirectY =>
    let base := s.memory.readZeroPageWord operand.low
    base.crossesPage (base + s.registers.y.toWord)
  | _ => false

end Cpu

/-! ### Penalties -/

namespace Family

/-- The families that pay a cycle when the index leaves the page: those that only read
their operand, where a mode of theirs indexes. -/
def paysForPage : Family → Bool
  | adc | sbc | and | ora | eor | cmp | lda | ldx | ldy | lax | las | nop => true
  | _ => false

/-- Whether a branch of this family is taken; no other family branches. -/
def takes (f : Family) (flags : Flags) : Bool :=
  match f with
  | bcc => !flags.carry
  | bcs => flags.carry
  | beq => flags.zero
  | bne => !flags.zero
  | bmi => flags.negative
  | bpl => !flags.negative
  | bvc => !flags.overflow
  | bvs => flags.overflow
  | _ => false

/-- The cycles beyond the base: one for an index that leaves the page, if the family pays
for it; for a taken branch one, and two when its target is on another page than the
instruction after it, where the program counter is by then. -/
def penalty (f : Family) (mode : AddressingMode) (operand : Word) (s : Cpu) : Nat :=
  if f.paysForPage && s.leavesPage mode operand then 1
  else if f.takes s.flags then
    if s.registers.pc.crossesPage (s.registers.pc + operand.low.toSignedWord) then 2 else 1
  else 0

end Family

/-! ### Operands that are there -/

namespace AddressingMode

/-- The modes that give a byte to read. -/
def isReadable : AddressingMode → Bool
  | implicit | relative | indirect => false
  | _ => true

/-- The modes that give a place to write a byte to. -/
def isWritable : AddressingMode → Bool
  | implicit | immediate | relative | indirect => false
  | _ => true

/-- The modes that give an address. -/
def isAddress : AddressingMode → Bool
  | implicit | accumulator | immediate | relative => false
  | _ => true

end AddressingMode

namespace Cpu
variable {mode : AddressingMode}

theorem readOperand_of_isReadable (s : Cpu) (h : mode.isReadable = true) (operand : Word) :
    ∃ v crossed, s.readOperand mode operand = .ok (v, crossed) := by
  cases mode <;> first | exact ⟨_, _, rfl⟩ | cases h

theorem place_of_isWritable (s : Cpu) (h : mode.isWritable = true) (operand : Word) :
    ∃ p, s.place mode operand = .ok p := by
  cases mode <;> first | exact ⟨_, rfl⟩ | cases h

theorem effectiveAddress_of_isAddress (s : Cpu) (h : mode.isAddress = true) (operand : Word) :
    ∃ target, s.effectiveAddress mode operand = .ok target := by
  cases mode <;> first | exact ⟨_, rfl⟩ | cases h

/-- A read reports exactly whether the index left the page. -/
theorem crossed_of_readOperand {s : Cpu} {operand : Word} {v : Byte} {crossed : Bool}
    (h : s.readOperand mode operand = .ok (v, crossed)) : crossed = s.leavesPage mode operand := by
  cases mode <;> cases h <;> rfl

/-! Places and operands are found without the ledger, and a byte put at a place leaves it. -/

theorem put_withLedger (s : Cpu) (p : Place) (v : Byte) (l : Ledger) :
    (s.withLedger l).put p v = (s.put p v).withLedger l := by
  cases p <;> rfl

theorem writeOperand_withLedger {operand : Word} {v : Byte} {s t : Cpu}
    (h : writeOperand mode operand v s = .ok () t) (l : Ledger) :
    writeOperand mode operand v (s.withLedger l) = .ok () (t.withLedger l) := by
  have hl : (s.withLedger l).place mode operand = s.place mode operand := rfl
  unfold writeOperand at h ⊢
  rw [hl]
  cases hp : s.place mode operand with
  | error fault => simp [hp] at h
  | ok p =>
    rw [hp] at h
    cases h
    simp only [put_withLedger]

theorem modifyOperand_withLedger {operand : Word} {op : Flags → Byte → Alu.Result} {v : Byte}
    {s t : Cpu} (h : modifyOperand mode operand op s = .ok v t) (l : Ledger) :
    modifyOperand mode operand op (s.withLedger l) = .ok v (t.withLedger l) := by
  have hl : (s.withLedger l).readOperand mode operand = s.readOperand mode operand := rfl
  unfold modifyOperand at h ⊢
  rw [hl]
  cases hr : s.readOperand mode operand with
  | error fault => simp [hr] at h
  | ok r =>
    simp only [hr] at h ⊢
    cases hw : writeOperand mode operand (op s.flags r.1).value
        {s with flags := (op s.flags r.1).flags} with
    | error fault u => simp [hw] at h
    | ok _ u =>
      rw [hw] at h
      cases h
      have hl' : writeOperand mode operand (op (s.withLedger l).flags r.1).value
          {s.withLedger l with flags := (op (s.withLedger l).flags r.1).flags} =
            .ok () (t.withLedger l) := writeOperand_withLedger hw l
      rw [hl']
      rfl

end Cpu

/-! ### Accesses -/

namespace Access

/-- What is done with the bytes is done on any ledger alike. -/
def Indifferent : Access → Prop
  | read _ use | modify _ use => ∀ v s l, use v (Cpu.withLedger s l) = (use v s).withLedger l
  | _ => True

/-- Whether leaving the page costs a cycle. -/
def pays : Access → Bool
  | read pays _ => pays
  | idle => true
  | _ => false

/-- The modes that an access can be carried out in. -/
def suits (access : Access) (mode : AddressingMode) : Bool :=
  match access with
  | read _ _ => mode.isReadable
  | modify _ _ => mode.isReadable && mode.isWritable
  | store _ => mode.isWritable
  | storeMasked _ _ | jump => mode.isAddress
  | idle => mode == .implicit || mode.isReadable

theorem perform_of_suits {access : Access} {mode : AddressingMode} (h : access.suits mode = true)
    (operand : Word) (s : Cpu) : ∃ t, access.perform mode operand s = .ok () t := by
  cases access with
  | read pays use =>
    obtain ⟨v, crossed, hr⟩ := s.readOperand_of_isReadable h operand
    exact ⟨_, by simp only [perform, hr]; rfl⟩
  | modify op use =>
    obtain ⟨hread, hwrite⟩ := Bool.and_eq_true_iff.mp h
    obtain ⟨v, crossed, hr⟩ := s.readOperand_of_isReadable hread operand
    obtain ⟨p, hp⟩ := s.place_of_isWritable hwrite operand
    have hw : Cpu.place {s with flags := (op s.flags v).flags} mode operand = .ok p := hp
    exact ⟨_, by simp only [perform, Cpu.modifyOperand, Cpu.writeOperand, hr, hw]; rfl⟩
  | store value =>
    obtain ⟨p, hp⟩ := s.place_of_isWritable h operand
    exact ⟨_, by simp only [perform, Cpu.writeOperand, hp]; rfl⟩
  | storeMasked value registers =>
    obtain ⟨target, ht⟩ := s.effectiveAddress_of_isAddress h operand
    exact ⟨_, by simp only [perform, ht]; rfl⟩
  | jump =>
    obtain ⟨target, ht⟩ := s.effectiveAddress_of_isAddress h operand
    exact ⟨_, by simp only [perform, ht]; rfl⟩
  | idle =>
    by_cases hi : mode = .implicit
    · exact ⟨s, by simp [perform, hi]⟩
    · have hread : mode.isReadable = true := by simpa [suits, hi] using h
      obtain ⟨v, crossed, hr⟩ := s.readOperand_of_isReadable hread operand
      exact ⟨_, by simp only [perform, if_neg hi, hr]; rfl⟩

/-- What an access does, it does on any ledger alike, but for the cycle that leaving the
page may cost. -/
theorem perform_withLedger {access : Access} (ha : access.Indifferent) {mode : AddressingMode}
    {operand : Word} {s t : Cpu} (h : access.perform mode operand s = .ok () t) (l : Ledger) :
    access.perform mode operand (s.withLedger l) =
      .ok () (t.withLedger
        (l.charge (if access.pays && s.leavesPage mode operand then 1 else 0))) := by
  have hfree (hp : access.pays = false) :
      l.charge (if access.pays && s.leavesPage mode operand then 1 else 0) = l := by
    rw [hp, Bool.false_and, if_neg Bool.false_ne_true, l.charge_zero]
  cases access with
  | read paid use =>
    have hl : (s.withLedger l).readOperand mode operand = s.readOperand mode operand := rfl
    have hu (k : Ledger) (v : Byte) : use v (s.withLedger k) = (use v s).withLedger k := ha v s k
    unfold perform at h ⊢
    simp only [hl]
    cases hr : s.readOperand mode operand with
    | error fault => simp [hr] at h
    | ok r =>
      simp only [hr] at h ⊢
      cases h
      rw [Cpu.crossed_of_readOperand hr]
      by_cases hp : (paid && s.leavesPage mode operand) = true
      · simp only [hp, pays, if_true, Cpu.charge_eq, Cpu.withLedger_withLedger, hu]
        rfl
      · simp only [hp, pays, Bool.false_eq_true, if_false, Ledger.charge_zero, hu]
  | modify op use =>
    rw [hfree rfl]
    unfold perform at h ⊢
    cases hm : Cpu.modifyOperand mode operand op s with
    | error fault u => simp [hm] at h
    | ok v u =>
      simp only [hm] at h
      cases h
      simp only [Cpu.modifyOperand_withLedger hm l]
      exact congrArg _ (ha v u l)
  | store value =>
    rw [hfree rfl]
    exact Cpu.writeOperand_withLedger h l
  | storeMasked _ _ | jump =>
    have hl : (s.withLedger l).effectiveAddress mode operand = s.effectiveAddress mode operand := rfl
    rw [hfree rfl]
    unfold perform at h ⊢
    simp only [hl]
    cases ht : s.effectiveAddress mode operand with
    | error fault => simp [ht] at h
    | ok target =>
      simp only [ht] at h
      cases h
      rfl
  | idle =>
    have hl : (s.withLedger l).readOperand mode operand = s.readOperand mode operand := rfl
    by_cases hi : mode = .implicit
    · subst hi
      show _ = EStateM.Result.ok () (t.withLedger (l.charge 0))
      rw [l.charge_zero]
      cases h
      rfl
    · unfold perform at h ⊢
      simp only [if_neg hi, hl] at h ⊢
      cases hr : s.readOperand mode operand with
      | error fault => simp [hr] at h
      | ok r =>
        simp only [hr] at h ⊢
        cases h
        rw [Cpu.crossed_of_readOperand hr]
        by_cases hp : s.leavesPage mode operand = true
        · simp only [hp, pays, Bool.true_and, if_true]
          rfl
        · simp only [hp, pays, Bool.true_and, Bool.false_eq_true, if_false, Ledger.charge_zero]

end Access

/-! ### Families -/

theorem Cpu.branch_withLedger (condition : Flags → Bool) (operand : Word) (s : Cpu) (l : Ledger) :
    branch condition operand (s.withLedger l) =
      (branch condition operand s).withLedger (l.charge
        (if condition s.flags then
          if s.registers.pc.crossesPage (s.registers.pc + operand.low.toSignedWord) then 2 else 1
        else 0)) := by
  unfold branch
  by_cases hc : condition s.flags = true
  · have hl : condition (s.withLedger l).flags = true := hc
    rw [if_pos hc, if_pos hl, if_pos hc]
    rfl
  · have hl : ¬ condition (s.withLedger l).flags = true := hc
    rw [if_neg hc, if_neg hl, if_neg hc, Ledger.charge_zero]

namespace Family
variable {f : Family}

theorem indifferent_of_through {access : Access} (h : f.effect = .through access) :
    access.Indifferent := by
  cases f <;> cases h <;> first | trivial | exact fun _ _ _ => rfl

/-- Every mode that a family declares suits its access. -/
theorem suits_of_mem_encodings {access : Access} (h : f.effect = .through access) {e : Encoding}
    (he : e ∈ f.encodings) : access.suits e.mode = true := by
  revert e
  cases f <;> cases h <;> decide

theorem penalty_of_through {access : Access} (h : f.effect = .through access)
    (mode : AddressingMode) (operand : Word) (s : Cpu) :
    f.penalty mode operand s = if access.pays && s.leavesPage mode operand then 1 else 0 := by
  cases f <;> cases h <;> rfl

theorem direct_withLedger {run : Word → Cpu → Cpu} (h : f.effect = .direct run)
    (mode : AddressingMode) (operand : Word) (s : Cpu) (l : Ledger) :
    run operand (s.withLedger l) =
      (run operand s).withLedger (l.settle f (f.penalty mode operand s)) := by
  have hz : l.settle f 0 = {l with softwareRequest := f == .brk || l.softwareRequest} := by
    rw [Ledger.settle, Ledger.charge_zero]
  cases f <;> cases h
  case bcc | bcs | beq | bne | bmi | bpl | bvc | bvs => exact Cpu.branch_withLedger _ operand s l
  all_goals
    show _ = Cpu.withLedger _ (Ledger.settle l _ 0)
    rw [hz]
    rfl

theorem execute_direct {run : Word → Cpu → Cpu} (hf : f.effect = .direct run) (operand : Word)
    (s : Cpu) : f.execute operand s = .ok () (run operand s) := by
  simp only [execute, hf]

theorem execute_through {access : Access} (hf : f.effect = .through access) {e : Encoding} {s : Cpu}
    (h : f.encoding? s.opcode = some e) (operand : Word) :
    f.execute operand s = access.perform e.mode operand s := by
  simp only [execute, hf, encoding, h]

/-- **An instruction whose family declares the recorded opcode is carried out, and never
looks at the ledger**: on any other one it does the same, entering the same penalty and
request. -/
theorem execute_spec {e : Encoding} {s : Cpu} (h : f.encoding? s.opcode = some e)
    (operand : Word) : ∃ t, f.execute operand s = .ok () t ∧ ∀ l,
      f.execute operand (s.withLedger l) =
        .ok () (t.withLedger (l.settle f (f.penalty e.mode operand s))) := by
  cases hf : f.effect with
  | direct run =>
    refine ⟨run operand s, execute_direct hf operand s, fun l => ?_⟩
    rw [execute_direct hf, direct_withLedger hf e.mode]
  | through access =>
    have he : e ∈ f.encodings := List.mem_of_find?_eq_some h
    have hb : f ≠ .brk := by
      rintro rfl
      cases hf
    obtain ⟨t, ht⟩ := access.perform_of_suits (suits_of_mem_encodings hf he) operand s
    refine ⟨t, (execute_through hf h operand).trans ht, fun l => ?_⟩
    rw [execute_through (s := s.withLedger l) hf h, penalty_of_through hf,
      Ledger.settle_of_ne_brk l hb]
    exact access.perform_withLedger (indifferent_of_through hf) ht l

/-- The ledger of the state an instruction leaves. -/
theorem ledger_execute {e : Encoding} {s t : Cpu} (h : f.encoding? s.opcode = some e)
    {operand : Word} (ht : f.execute operand s = .ok () t) :
    t.ledger = s.ledger.settle f (f.penalty e.mode operand s) := by
  obtain ⟨u, hu, hl⟩ := execute_spec h operand
  have hs := hl s.ledger
  rw [Cpu.withLedger_ledger, ht] at hs
  cases hs
  rfl

end Family

end Nmos6502
