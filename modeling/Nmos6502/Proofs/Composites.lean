import Nmos6502.Proofs.Resolution

/-! Undocumented instructions as documented ones carried out in turn.

Six families change a byte of memory and then use the new byte, and both as a documented family
does (`Family.parts?`). Such an instruction leaves what its two parts leave when the first is
carried out at the address that the operand has beforehand, and the second with the new byte at
hand (`Family.takes_parts`): the address is found once, so it does not matter if the byte that
changes is one of the pointer to it, and no crossed page is ever paid for.

Six more work on registers alone, each like a documented instruction with another after it
(`Family.takes_load`, `Family.takes_load_immediate` and the masks that follow), but for a carry
and an overflow made in a way of their own. -/
namespace Nmos6502

theorem Byte.rotateRightThrough_bits : ∀ (b : Byte) (carry : Bool),
    (b.rotateRightThrough carry).1.isBitSet 6 = b.isBitSet 7 ∧
      (b.rotateRightThrough carry).1.isBitSet 5 = b.isBitSet 6 := by
  decide

namespace Family
variable {f change use : Family} {e : Encoding} {s : Cpu} {operand : Word}

/-- A documented instruction of the family takes one state to another, its opcode on record. -/
def Takes (f : Family) (mode : AddressingMode) (operand : Word) (s t : Cpu) : Prop :=
  ∃ e ∈ f.encodings, e.mode = mode ∧ e.documented = true ∧
    f.execute operand (s.withOpcode e.opcode) = .ok () t

/-! ### A change of memory and a use of the new byte -/

/-- The family that changes a byte in the same way, and the one that uses the new byte so. -/
def parts? : Family → Option (Family × Family)
  | slo => some (asl, ora)
  | rla => some (rol, and)
  | sre => some (lsr, eor)
  | rra => some (ror, adc)
  | dcp => some (dec, cmp)
  | isc => some (inc, sbc)
  | _ => none

theorem effect_of_parts (h : f.parts? = some (change, use)) :
    ∃ op pays act, f.effect = .through (.modify op act) ∧
      change.effect = .through (.modify op fun _ s => s) ∧
      use.effect = .through (.read pays act) := by
  cases f <;> cases h <;> exact ⟨_, _, _, rfl, rfl, rfl⟩

/-- The parts are documented in the modes that they are carried out in. -/
theorem documented_of_parts (h : f.parts? = some (change, use)) :
    (∃ e ∈ change.encodings, e.mode = .absolute ∧ e.documented = true) ∧
      ∃ e ∈ use.encodings, e.mode = .immediate ∧ e.documented = true := by
  cases f <;> cases h <;> decide

theorem isAddress_of_parts (h : f.parts? = some (change, use)) (he : e ∈ f.encodings) :
    e.mode.isAddress = true := by
  revert e
  cases f <;> cases h <;> decide

theorem not_mem_masked {access : Access} (h : f.effect = .through access)
    (hm : access.masks = false) : f ∉ masked := by
  cases f <;> cases h <;> first | decide | cases hm

/-- **A composite leaves what its parts leave**, one after the other, and no cycle more. -/
theorem takes_parts (h : f.parts? = some (change, use)) (he : e ∈ f.encodings) {target : Target}
    (ht : s.effectiveAddress e.mode operand = .ok target) :
    ∃ u t, change.Takes .absolute target.address s u ∧
      use.Takes .immediate (u.memory.read target.address).toWord u t ∧
      f.execute operand (s.withOpcode e.opcode) = .ok () (t.withOpcode e.opcode) ∧
      t.cyclesLeft = s.cyclesLeft := by
  obtain ⟨op, pays, act, hf, hchange, huse⟩ := effect_of_parts h
  obtain ⟨⟨e₁, he₁, hm₁, hd₁⟩, e₂, he₂, hm₂, hd₂⟩ := documented_of_parts h
  let result := op s.flags (s.memory.read target.address)
  let changed : Cpu := {s with
    flags := result.flags
    memory := s.memory.write target.address result.value}
  have hread : changed.memory.read target.address = result.value := Memory.read_write_self _ _ _
  have hfree {g : Family} {op : Flags → Byte → Alu.Result} {act : Byte → Cpu → Cpu}
      (hg : g.effect = .through (.modify op act)) (target : Target) : g.crossing target = 0 := by
    rw [crossing, paysForPage_of_through hg]
    rfl
  -- the address serves as the operand of the first part
  have hu : change.execute target.address (s.withOpcode e₁.opcode) =
      .ok () (changed.withOpcode e₁.opcode) := by
    have ha : s.effectiveAddress e₁.mode target.address = .ok (.direct target.address) := by
      rw [hm₁]
      rfl
    rw [execute_resolved_through hchange (not_mem_masked hchange rfl) he₁ ha, hfree hchange,
      Cpu.charge_zero]
    rfl
  -- and the new byte as that of the second
  have hv : (changed.withOpcode e₁.opcode).memory.read target.address =
      ((changed.withOpcode e₁.opcode).memory.read target.address).toWord.low :=
    (Word.low_toWord _).symm
  have hdetached := detached_of_through huse
  have hw : use.execute ((changed.withOpcode e₁.opcode).memory.read target.address).toWord
      ((changed.withOpcode e₁.opcode).withOpcode e₂.opcode) =
        .ok () ((act result.value changed).withOpcode e₂.opcode) := by
    rw [execute_immediate_through huse he₂ hm₂ hv, Access.performAt_withOpcode hdetached]
    simp only [Access.performAt, Target.direct, Bool.and_false, Bool.false_eq_true, if_false, hread]
    rfl
  refine ⟨_, _, ⟨e₁, he₁, hm₁, hd₁, hu⟩, ⟨e₂, he₂, hm₂, hd₂, hw⟩, ?_, ?_⟩
  · rw [execute_resolved_through hf (not_mem_masked hf rfl) he ht, hfree hf, Cpu.charge_zero]
    rfl
  · exact Access.cyclesLeft_performAt_direct (indifferent_of_through hf) target.address 0 s

/-! ### Loads of two registers -/

/-- Whatever address a load of both registers resolves to, a load of the accumulator does too. -/
theorem exists_load (he : e ∈ lax.encodings) {target : Target}
    (ht : s.effectiveAddress e.mode operand = .ok target) :
    ∃ e' ∈ lda.encodings, ∃ operand', s.effectiveAddress e'.mode operand' = .ok target := by
  have hmode : ∀ e ∈ lax.encodings,
      e.mode = .zeroPageY ∨ ∃ e' ∈ lda.encodings, e'.mode = e.mode := by decide
  rcases hmode e he with hm | ⟨e', he', hm⟩
  · rw [hm] at ht
    cases ht
    exact ⟨lda.official 0xAD .absolute 4, by decide, _, rfl⟩
  · exact ⟨e', he', operand, hm ▸ ht⟩

/-- A load of both registers is a load of the accumulator and a transfer. -/
theorem takes_load (he : e ∈ lax.encodings) {target : Target}
    (ht : s.effectiveAddress e.mode operand = .ok target) {e' : Encoding} (he' : e' ∈ lda.encodings)
    {operand' : Word} (ht' : s.effectiveAddress e'.mode operand' = .ok target) :
    ∃ u t, lda.Takes e'.mode operand' s u ∧ tax.Takes .implicit 0 u t ∧
      lax.execute operand (s.withOpcode e.opcode) = .ok () (t.withOpcode e.opcode) := by
  have hdocumented : ∀ e ∈ lda.encodings, e.documented = true := by decide
  refine ⟨_, _,
    ⟨e', he', rfl, hdocumented e' he', execute_resolved_through rfl (by decide) he' ht'⟩,
    ⟨tax.official 0xAA .implicit 2, by decide, rfl, rfl, rfl⟩, ?_⟩
  exact execute_resolved_through rfl (by decide) he ht

/-! ### Immediate operations

Their opcode on record does not matter, so it may be any. -/

theorem takes_load_immediate (operand : Word) (s : Cpu) :
    ∃ u t, lda.Takes .immediate operand s u ∧ tax.Takes .implicit 0 u t ∧
      lxa.execute operand s = .ok () (t.withOpcode s.opcode) :=
  ⟨_, _, ⟨lda.official 0xA9 .immediate 2, by decide, rfl, rfl, rfl⟩,
    ⟨tax.official 0xAA .implicit 2, by decide, rfl, rfl, rfl⟩, rfl⟩

theorem takes_mask_shift (operand : Word) (s : Cpu) :
    ∃ u t, and.Takes .immediate operand s u ∧ lsr.Takes .accumulator 0 u t ∧
      alr.execute operand s = .ok () (t.withOpcode s.opcode) :=
  ⟨_, _, ⟨and.official 0x29 .immediate 2, by decide, rfl, rfl, rfl⟩,
    ⟨lsr.official 0x4A .accumulator 2, by decide, rfl, rfl, rfl⟩, rfl⟩

theorem takes_mask (operand : Word) (s : Cpu) :
    ∃ u, and.Takes .immediate operand s u ∧
      anc.execute operand s =
        .ok () {u with flags.carry := u.flags.negative, opcode := s.opcode} :=
  ⟨_, ⟨and.official 0x29 .immediate 2, by decide, rfl, rfl, rfl⟩, rfl⟩

/-- The carry and the overflow of a masked rotation come from the two top bits under the mask. -/
theorem takes_mask_rotate (operand : Word) (s : Cpu) :
    let masked := s.registers.a &&& operand.low
    ∃ u t, and.Takes .immediate operand s u ∧ ror.Takes .accumulator 0 u t ∧
      arr.execute operand s = .ok () {t with
        flags.carry := masked.isBitSet 7
        flags.overflow := masked.isBitSet 7 != masked.isBitSet 6
        opcode := s.opcode} := by
  intro masked
  refine ⟨_, _, ⟨and.official 0x29 .immediate 2, by decide, rfl, rfl, rfl⟩,
    ⟨ror.official 0x6A .accumulator 2, by decide, rfl, rfl, rfl⟩, ?_⟩
  obtain ⟨h6, h5⟩ := masked.rotateRightThrough_bits s.flags.carry
  rw [← h6, ← h5]
  rfl

theorem takes_compare (operand : Word) (s : Cpu) :
    let masked := s.registers.a &&& s.registers.x
    ∃ t, cmp.Takes .immediate operand {s with registers.a := masked} t ∧
      sbx.execute operand s = .ok () {t with
        registers.a := s.registers.a
        registers.x := masked - operand.low
        opcode := s.opcode} :=
  ⟨_, ⟨cmp.official 0xC9 .immediate 2, by decide, rfl, rfl, rfl⟩, rfl⟩

/-! ### All of them -/

/-- **Undocumented instructions are documented ones in turn.** A change of memory and the use of
the new byte are carried out one after the other at the address that the operand has beforehand,
and cost no cycle beyond the base. A load of both registers is a load of the accumulator from
wherever the operand is, then a transfer; and so are the immediate ones a mask, a load or a
comparison of the accumulator with what comes after it. -/
theorem composites_decompose (s : Cpu) (operand : Word) :
    (∀ f change use : Family, f.parts? = some (change, use) → ∀ e ∈ f.encodings, ∃ target u t,
      s.effectiveAddress e.mode operand = .ok target ∧
      change.Takes .absolute target.address s u ∧
      use.Takes .immediate (u.memory.read target.address).toWord u t ∧
      f.execute operand (s.withOpcode e.opcode) = .ok () (t.withOpcode e.opcode) ∧
      t.cyclesLeft = s.cyclesLeft) ∧
    (∀ e ∈ lax.encodings, ∃ target, s.effectiveAddress e.mode operand = .ok target ∧
      (∃ e' ∈ lda.encodings, ∃ operand', s.effectiveAddress e'.mode operand' = .ok target) ∧
      ∀ e' ∈ lda.encodings, ∀ operand', s.effectiveAddress e'.mode operand' = .ok target →
        ∃ u t, lda.Takes e'.mode operand' s u ∧ tax.Takes .implicit 0 u t ∧
          lax.execute operand (s.withOpcode e.opcode) = .ok () (t.withOpcode e.opcode)) ∧
    (∃ u t, lda.Takes .immediate operand s u ∧ tax.Takes .implicit 0 u t ∧
      lxa.execute operand s = .ok () (t.withOpcode s.opcode)) ∧
    (∃ u t, and.Takes .immediate operand s u ∧ lsr.Takes .accumulator 0 u t ∧
      alr.execute operand s = .ok () (t.withOpcode s.opcode)) ∧
    (∃ u, and.Takes .immediate operand s u ∧ anc.execute operand s =
      .ok () {u with flags.carry := u.flags.negative, opcode := s.opcode}) ∧
    (let masked := s.registers.a &&& operand.low
     ∃ u t, and.Takes .immediate operand s u ∧ ror.Takes .accumulator 0 u t ∧
      arr.execute operand s = .ok () {t with
        flags.carry := masked.isBitSet 7
        flags.overflow := masked.isBitSet 7 != masked.isBitSet 6
        opcode := s.opcode}) ∧
    (let masked := s.registers.a &&& s.registers.x
     ∃ t, cmp.Takes .immediate operand {s with registers.a := masked} t ∧
      sbx.execute operand s = .ok () {t with
        registers.a := s.registers.a
        registers.x := masked - operand.low
        opcode := s.opcode}) := by
  refine ⟨fun f change use h e he => ?_, fun e he => ?_, takes_load_immediate operand s,
    takes_mask_shift operand s, takes_mask operand s, takes_mask_rotate operand s,
    takes_compare operand s⟩
  · obtain ⟨target, ht⟩ := s.effectiveAddress_of_isAddress (isAddress_of_parts h he) operand
    obtain ⟨u, t, hu, ht', hf, hc⟩ := takes_parts h he ht
    exact ⟨target, u, t, ht, hu, ht', hf, hc⟩
  · have ha : ∀ e ∈ lax.encodings, e.mode.isAddress = true := by decide
    obtain ⟨target, ht⟩ := s.effectiveAddress_of_isAddress (ha e he) operand
    exact ⟨target, ht, exists_load he ht, fun e' he' operand' => takes_load he ht he'⟩

/-- A pointer at address 16 to itself, and the decimal flag set. -/
def pointedSelf : Cpu :=
  {Cpu.powerOn (Memory.zero.write 0x0010 0x10) with
    registers := ⟨0x25, 0, 0, 0xFF, 0x0600⟩
    flags := {Flags.clear with decimal := true}}

/-- The pointer is rotated to 8 and added in packed digits, although it led to itself before. -/
theorem pointedSelf_rotates : ∃ u t,
    ror.Takes .absolute 0x0010 pointedSelf u ∧
    adc.Takes .immediate (u.memory.read 0x0010).toWord u t ∧
    rra.execute 0x0010 (pointedSelf.withOpcode 0x73) = .ok () (t.withOpcode 0x73) ∧
    t.memory.read 0x0010 = 0x08 ∧ t.registers.a = 0x33 ∧ t.cyclesLeft = 0 := by
  have he : rra.unofficial 0x73 .indirectY 8 ∈ rra.encodings := by decide
  obtain ⟨target, u, t, ht, hu, hut, hf, hc⟩ :=
    (composites_decompose pointedSelf 0x0010).1 rra ror adc rfl _ he
  have hp : pointedSelf.memory.readZeroPageWord 0x0010 = 0x0010 := by decide +kernel
  have htarget : pointedSelf.effectiveAddress .indirectY 0x0010 = .ok ⟨0x0010, false⟩ :=
    congrArg (fun base => Except.ok (Target.indexed base 0)) hp
  obtain rfl := Except.ok.inj (ht.symm.trans htarget)
  have hrun := hf.symm.trans (execute_resolved_through rfl (by decide) he htarget)
  have hstate := (EStateM.Result.ok.inj hrun).2
  have hm : t.memory.read 0x0010 = 0x08 :=
    (congrArg (fun s => s.memory.read 0x0010) hstate).trans (by decide +kernel)
  have ha : t.registers.a = 0x33 :=
    (congrArg (fun s => s.registers.a) hstate).trans (by decide +kernel)
  exact ⟨u, t, hu, hut, hf, hm, ha, hc⟩

end Family

end Nmos6502
