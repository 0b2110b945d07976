import Nmos6502.Proofs.Access

/-! An addressing mode is a way to an address.

An instruction asks of its mode where the operand is, and whether the index left the page on
the way there if it pays for that. So two opcodes of a family whose operands resolve to one
address do the same to a state, but for the opcode on record and the cycle of a crossed page
(`Family.Alike`), and an immediate byte is as good as the same byte in memory.
Only the four stores that mask with the page of their operand look further. -/
namespace Nmos6502

/-- Every declaration of a family is the one it finds under the opcode. -/
theorem Family.encoding?_of_mem_encodings {f : Family} {e : Encoding} (h : e ∈ f.encodings) :
    f.encoding? e.opcode = some e := by
  have hall : e ∈ Encoding.all := List.mem_flatMap.mpr ⟨f, f.mem_all, h⟩
  have hf := Encoding.encoding?_of_ofOpcode? (Encoding.ofOpcode?_opcode hall)
  rwa [family_of_mem_encodings h] at hf

namespace Cpu

theorem effectiveAddress_withOpcode {s : Cpu} {mode : AddressingMode} {operand : Word}
    {target : Target} (h : s.effectiveAddress mode operand = .ok target) (opcode : Byte) :
    (s.withOpcode opcode).effectiveAddress mode operand = .ok target := by
  cases mode <;> cases h <;> rfl

theorem isAddress_of_effectiveAddress {s : Cpu} {mode : AddressingMode} {operand : Word}
    {target : Target} (h : s.effectiveAddress mode operand = .ok target) :
    mode.isAddress = true := by
  cases mode <;> cases h <;> rfl

end Cpu

namespace Access
variable {access : Access}

/-- What is done with the bytes leaves the ledger. -/
theorem use_ledger {use : Byte → Cpu → Cpu}
    (hi : ∀ v s l, use v (s.withLedger l) = (use v s).withLedger l) (v : Byte) (s : Cpu) :
    (use v s).ledger = s.ledger := by
  have hs : use v s = (use v s).withLedger s.ledger := hi v s s.ledger
  rw [hs]
  rfl

/-- A cycle may as well be charged after the bytes are used. -/
theorem use_charge {use : Byte → Cpu → Cpu}
    (hi : ∀ v s l, use v (s.withLedger l) = (use v s).withLedger l) (v : Byte) (s : Cpu)
    (cycles : Nat) : use v (s.charge cycles) = (use v s).charge cycles := by
  rw [Cpu.charge_eq, hi, Cpu.charge_eq, use_ledger hi]

/-- An access at an address that no index was carried into costs nothing. -/
theorem cyclesLeft_performAt_direct (hi : access.Indifferent) (address : Word) (page : Byte)
    (s : Cpu) : (access.performAt (.direct address) page s).cyclesLeft = s.cyclesLeft := by
  cases access with
  | read paid use =>
    simp only [performAt, Target.direct, Bool.and_false, Bool.false_eq_true, if_false]
    exact congrArg Ledger.cyclesLeft (use_ledger hi _ s)
  | modify op use => exact congrArg Ledger.cyclesLeft (use_ledger hi _ _)
  | store | storeMasked | jump | idle => rfl

/-- The page that the index left costs a cycle or nothing, and matters no further. -/
theorem performAt_crossed (hi : access.Indifferent) (target : Target) (page : Byte) (s : Cpu) :
    access.performAt target page s =
      (access.performAt (.direct target.address) page s).charge
        (if access.pays && target.crossed then 1 else 0) := by
  cases access with
  | read paid use =>
    cases paid <;> cases hc : target.crossed <;>
      simp [performAt, pays, Target.direct, hc, use_charge hi]
  | idle => cases hc : target.crossed <;> simp [performAt, pays, Target.direct, hc]
  | modify | store | storeMasked | jump => exact (Cpu.charge_zero _).symm

theorem performAt_withOpcode (hd : access.Detached) (target : Target) (page : Byte) (s : Cpu)
    (opcode : Byte) :
    access.performAt target page (s.withOpcode opcode) =
      (access.performAt target page s).withOpcode opcode := by
  cases access with
  | read paid use =>
    have hu (t : Cpu) := (hd (s.memory.read target.address) t).2 opcode
    simp only [performAt]
    split
    · exact hu (s.charge 1)
    · exact hu s
  | modify op use =>
    let result := op s.flags (s.memory.read target.address)
    exact (hd result.value {s with
      flags := result.flags
      memory := s.memory.write target.address result.value}).2 opcode
  | idle =>
    simp only [performAt]
    split <;> rfl
  | store | storeMasked | jump => rfl

end Access

namespace Family
variable {f : Family} {access : Access} {e : Encoding} {s : Cpu} {operand : Word}

/-- The families that store under a mask made of the page of their operand. -/
def masked : List Family := [sha, shx, shy, tas]

theorem masks_of_through (h : f.effect = .through access) (hf : f ∉ masked) :
    access.masks = false := by
  cases f <;> cases h <;> first | rfl | exact absurd (by decide) hf

theorem paysForPage_of_through (h : f.effect = .through access) :
    f.paysForPage = access.pays := by
  cases f <;> cases h <;> rfl

/-- The cycles that the way to an operand costs. -/
def crossing (f : Family) (target : Target) : Nat :=
  if f.paysForPage && target.crossed then 1 else 0

/-- What an instruction with an operand at an address does, whatever mode led there: it
leaves a state, the opcode on record and the cycle for the crossed page apart. -/
theorem execute_resolved_through (h : f.effect = .through access) (hf : f ∉ masked)
    (he : e ∈ f.encodings) {target : Target}
    (ht : s.effectiveAddress e.mode operand = .ok target) :
    f.execute operand (s.withOpcode e.opcode) =
      .ok () (((access.performAt (.direct target.address) 0 s).withOpcode e.opcode).charge
        (f.crossing target)) := by
  rw [execute_through (s := s.withOpcode e.opcode) h (encoding?_of_mem_encodings he),
    Access.perform_eq_performAt (suits_of_mem_encodings h he)
      (Cpu.effectiveAddress_withOpcode ht e.opcode),
    Access.performAt_page (masks_of_through h hf) _ _ 0,
    Access.performAt_crossed (indifferent_of_through h),
    Access.performAt_withOpcode (detached_of_through h), crossing, paysForPage_of_through h]

/-- An immediate byte is used like the same byte at an address. -/
theorem execute_immediate_through (h : f.effect = .through access) (he : e ∈ f.encodings)
    (hm : e.mode = .immediate) {address : Word} (hv : s.memory.read address = operand.low) :
    f.execute operand (s.withOpcode e.opcode) =
      .ok () ((access.performAt (.direct address) 0 s).withOpcode e.opcode) := by
  have hs : access.suits .immediate = true := hm ▸ suits_of_mem_encodings h he
  rw [execute_through (s := s.withOpcode e.opcode) h (encoding?_of_mem_encodings he), hm,
    Access.perform_immediate (s := s.withOpcode e.opcode) hs hv 0,
    Access.performAt_withOpcode (detached_of_through h)]

/-- Of the families that do one thing whatever the mode, the call alone has an address. -/
theorem jsr_of_direct {run : Word → Cpu → Cpu} (h : f.effect = .direct run) (he : e ∈ f.encodings)
    (ha : e.mode.isAddress = true) : f = .jsr ∧ e.mode = .absolute := by
  revert e
  cases f <;> cases h <;> decide

/-- Two opcodes of a family come to one state, each with itself on record and with the cycles
that the way to its operand costs. -/
def Alike (f : Family) (s : Cpu) (e₁ e₂ : Encoding) (w₁ w₂ : Word) (cycles₁ cycles₂ : Nat) : Prop :=
  ∃ t : Cpu, t.cyclesLeft = s.cyclesLeft ∧
    f.execute w₁ (s.withOpcode e₁.opcode) = .ok () ((t.withOpcode e₁.opcode).charge cycles₁) ∧
    f.execute w₂ (s.withOpcode e₂.opcode) = .ok () ((t.withOpcode e₂.opcode).charge cycles₂)

variable {e₁ e₂ : Encoding} {w₁ w₂ : Word}

theorem alike_of_resolved (hf : f ∉ masked) (h₁ : e₁ ∈ f.encodings) (h₂ : e₂ ∈ f.encodings)
    {t₁ t₂ : Target} (ht₁ : s.effectiveAddress e₁.mode w₁ = .ok t₁)
    (ht₂ : s.effectiveAddress e₂.mode w₂ = .ok t₂) (ha : t₁.address = t₂.address) :
    f.Alike s e₁ e₂ w₁ w₂ (f.crossing t₁) (f.crossing t₂) := by
  cases hx : f.effect with
  | direct run =>
    obtain ⟨rfl, hm₁⟩ := jsr_of_direct hx h₁ (Cpu.isAddress_of_effectiveAddress ht₁)
    obtain ⟨-, hm₂⟩ := jsr_of_direct hx h₂ (Cpu.isAddress_of_effectiveAddress ht₂)
    rw [hm₁] at ht₁
    rw [hm₂] at ht₂
    cases ht₁
    cases ht₂
    obtain rfl : w₁ = w₂ := ha
    refine ⟨s.call w₁, rfl, ?_, ?_⟩ <;> exact congrArg _ (Cpu.charge_zero _).symm
  | through access =>
    refine ⟨access.performAt (.direct t₁.address) 0 s,
      Access.cyclesLeft_performAt_direct (indifferent_of_through hx) _ _ _,
      execute_resolved_through hx hf h₁ ht₁, ?_⟩
    rw [ha]
    exact execute_resolved_through hx hf h₂ ht₂

theorem alike_of_immediate (hf : f ∉ masked) (h₁ : e₁ ∈ f.encodings) (h₂ : e₂ ∈ f.encodings)
    (hm : e₁.mode = .immediate) {t₂ : Target} (ht₂ : s.effectiveAddress e₂.mode w₂ = .ok t₂)
    (hv : s.memory.read t₂.address = w₁.low) :
    f.Alike s e₁ e₂ w₁ w₂ 0 (f.crossing t₂) := by
  cases hx : f.effect with
  | direct run =>
    obtain ⟨rfl, -⟩ := jsr_of_direct hx h₂ (Cpu.isAddress_of_effectiveAddress ht₂)
    have hj : ∀ e ∈ jsr.encodings, e.mode ≠ .immediate := by decide
    exact absurd hm (hj e₁ h₁)
  | through access =>
    refine ⟨access.performAt (.direct t₂.address) 0 s,
      Access.cyclesLeft_performAt_direct (indifferent_of_through hx) _ _ _, ?_,
      execute_resolved_through hx hf h₂ ht₂⟩
    rw [Cpu.charge_zero]
    exact execute_immediate_through hx h₁ hm hv

/-- **An instruction depends on its mode only through the address.** Two opcodes of a family
with operands at one address, by whatever modes, come to one state, but for the opcode on record
and for the cycle that a family pays when the index leaves the page. So do an immediate byte and
an operand whose byte in memory is the same. -/
theorem execute_of_resolved (hf : f ∉ masked) (h₁ : e₁ ∈ f.encodings) (h₂ : e₂ ∈ f.encodings)
    (s : Cpu) (w₁ w₂ : Word) :
    (∀ t₁ t₂, s.effectiveAddress e₁.mode w₁ = .ok t₁ → s.effectiveAddress e₂.mode w₂ = .ok t₂ →
      t₁.address = t₂.address → f.Alike s e₁ e₂ w₁ w₂ (f.crossing t₁) (f.crossing t₂)) ∧
    ∀ t₂, e₁.mode = .immediate → s.effectiveAddress e₂.mode w₂ = .ok t₂ →
      s.memory.read t₂.address = w₁.low → f.Alike s e₁ e₂ w₁ w₂ 0 (f.crossing t₂) :=
  ⟨fun _ _ ht₁ ht₂ => alike_of_resolved hf h₁ h₂ ht₁ ht₂,
    fun _ hm ht₂ => alike_of_immediate hf h₁ h₂ hm ht₂⟩

/-- A byte on page two, with a pointer below it on page one. -/
def pointedAcross : Cpu :=
  {Cpu.powerOn ((Memory.zero.writeBytes 0x0010 [0xFF, 0x01]).write 0x0200 0x80) with
    registers := ⟨0, 0, 1, 0xFF, 0x0600⟩}

/-- Through the pointer the byte costs a cycle more than by its address or at hand. -/
theorem pointedAcross_loads :
    lda.Alike pointedAcross (lda.official 0xAD .absolute 4) (lda.official 0xB1 .indirectY 5)
      0x0200 0x0010 0 1 ∧
    lda.Alike pointedAcross (lda.official 0xA9 .immediate 2) (lda.official 0xB1 .indirectY 5)
      0x0080 0x0010 0 1 := by
  have hf : lda ∉ masked := by decide
  have hm : lda.official 0xA9 .immediate 2 ∈ lda.encodings := by decide
  have ha : lda.official 0xAD .absolute 4 ∈ lda.encodings := by decide
  have hy : lda.official 0xB1 .indirectY 5 ∈ lda.encodings := by decide
  have hp : pointedAcross.memory.readZeroPageWord 0x0010 = 0x01FF := by decide +kernel
  have ht : pointedAcross.effectiveAddress .indirectY 0x0010 = .ok ⟨0x0200, true⟩ :=
    congrArg (fun base => Except.ok (Target.indexed base 1)) hp
  have hv : pointedAcross.memory.read 0x0200 = Word.low 0x0080 := Memory.read_write_self _ _ _
  exact ⟨(execute_of_resolved hf ha hy pointedAcross _ _).1 ⟨0x0200, false⟩ _ rfl ht rfl,
    (execute_of_resolved hf hm hy pointedAcross _ _).2 _ rfl ht hv⟩

end Family

end Nmos6502
