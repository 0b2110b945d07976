import Nmos6502.Proofs.Resolution

/-! Opcodes that are one instruction.

A family may declare a mode more than once. The declarations then differ in nothing but the
opcode, and no two of them are documented (`Family.cycles_of_mode`, `Family.opcode_of_documented`).
Nor does an instruction see which of them is on record: the opcode leads it to its mode, and what
it does after that it does under any (`Access.Done.withOpcode`), so two opcodes of one mode take a
state to the same state but for themselves (`Family.execute_of_mode`). -/
namespace Nmos6502

namespace Cpu
variable {s : Cpu} {mode : AddressingMode} {operand : Word}

theorem readOperand_withOpcode {r : Byte × Bool} (h : s.readOperand mode operand = .ok r)
    (opcode : Byte) : (s.withOpcode opcode).readOperand mode operand = .ok r := by
  cases mode <;> cases h <;> rfl

theorem place_withOpcode {p : Place} (h : s.place mode operand = .ok p) (opcode : Byte) :
    (s.withOpcode opcode).place mode operand = .ok p := by
  cases mode <;> cases h <;> rfl

theorem put_withOpcode (s : Cpu) (p : Place) (value opcode : Byte) :
    (s.withOpcode opcode).put p value = (s.put p value).withOpcode opcode := by
  cases p <;> rfl

theorem branch_withOpcode (condition : Flags → Bool) (operand : Word) (s : Cpu) (opcode : Byte) :
    branch condition operand (s.withOpcode opcode) =
      (branch condition operand s).withOpcode opcode := by
  unfold branch
  by_cases hc : condition s.flags = true
  · have ho : condition (s.withOpcode opcode).flags = true := hc
    rw [if_pos hc, if_pos ho]
    rfl
  · have ho : ¬ condition (s.withOpcode opcode).flags = true := hc
    rw [if_neg hc, if_neg ho]

end Cpu

/-- What an access does to a state, it does under any opcode on record. -/
theorem Access.Done.withOpcode {access : Access} (hd : access.Detached) {mode : AddressingMode}
    {operand : Word} {s t : Cpu} (h : access.Done mode operand s t) (opcode : Byte) :
    access.perform mode operand (s.withOpcode opcode) = .ok () (t.withOpcode opcode) := by
  cases h with
  | @read pays use v crossed found =>
    have hu (u : Cpu) : use v (u.withOpcode opcode) = (use v u).withOpcode opcode :=
      (hd v u).2 opcode
    simp only [perform, Cpu.readOperand_withOpcode found opcode]
    split
    · exact congrArg _ (hu (s.charge 1))
    · exact congrArg _ (hu s)
  | @modify op use v crossed p found place =>
    have hp : Cpu.place {s.withOpcode opcode with flags := (op s.flags v).flags} mode operand =
        .ok p := Cpu.place_withOpcode place opcode
    have hput : Cpu.put {s.withOpcode opcode with flags := (op s.flags v).flags} p
        (op s.flags v).value =
        (Cpu.put {s with flags := (op s.flags v).flags} p (op s.flags v).value).withOpcode opcode :=
      Cpu.put_withOpcode {s with flags := (op s.flags v).flags} p _ opcode
    have hflags : (s.withOpcode opcode).flags = s.flags := rfl
    simp only [perform, Cpu.modifyOperand, Cpu.writeOperand,
      Cpu.readOperand_withOpcode found opcode, hflags, hp, hput]
    exact congrArg _ ((hd _ _).2 opcode)
  | @store value p place =>
    simp only [perform, Cpu.writeOperand, Cpu.place_withOpcode place opcode]
    exact congrArg _ (Cpu.put_withOpcode s p _ opcode)
  | storeMasked found | jump found =>
    simp only [perform, Cpu.effectiveAddress_withOpcode found opcode]
    rfl
  | rest implicit => simp only [perform, if_pos implicit]
  | @idle v crossed found =>
    have hi : mode ≠ .implicit := by
      rintro rfl
      cases found
    simp only [perform, if_neg hi, Cpu.readOperand_withOpcode found opcode]
    split <;> rfl

namespace Family
variable {f : Family} {e₁ e₂ : Encoding}

theorem direct_withOpcode {run : Word → Cpu → Cpu} (h : f.effect = .direct run) (operand : Word)
    (s : Cpu) (opcode : Byte) :
    run operand (s.withOpcode opcode) = (run operand s).withOpcode opcode := by
  cases f <;> cases h
  case bcc | bcs | beq | bne | bmi | bpl | bvc | bvs =>
    exact Cpu.branch_withOpcode _ operand s opcode
  all_goals rfl

/-- In one mode, all opcodes of a family cost the same. -/
theorem cycles_of_mode (h₁ : e₁ ∈ f.encodings) (h₂ : e₂ ∈ f.encodings) (hm : e₁.mode = e₂.mode) :
    e₁.cycles = e₂.cycles := by
  have hall : ∀ e₁ ∈ f.encodings, ∀ e₂ ∈ f.encodings, e₁.mode = e₂.mode →
      e₁.cycles = e₂.cycles := by
    cases f <;> decide
  exact hall e₁ h₁ e₂ h₂ hm

/-- In one mode, a family has one documented opcode at most. -/
theorem opcode_of_documented (h₁ : e₁ ∈ f.encodings) (h₂ : e₂ ∈ f.encodings)
    (hm : e₁.mode = e₂.mode) (hd₁ : e₁.documented = true) (hd₂ : e₂.documented = true) :
    e₁.opcode = e₂.opcode := by
  have hall : ∀ e₁ ∈ f.encodings, ∀ e₂ ∈ f.encodings, e₁.mode = e₂.mode →
      e₁.documented = true → e₂.documented = true → e₁.opcode = e₂.opcode := by
    cases f <;> decide
  exact hall e₁ h₁ e₂ h₂ hm hd₁ hd₂

/-- In one mode, all opcodes of a family do the same to a state, but for the opcode on record. -/
theorem execute_of_mode (h₁ : e₁ ∈ f.encodings) (h₂ : e₂ ∈ f.encodings) (hm : e₁.mode = e₂.mode)
    (operand : Word) (s : Cpu) :
    ∃ t : Cpu, f.execute operand (s.withOpcode e₁.opcode) = .ok () (t.withOpcode e₁.opcode) ∧
      f.execute operand (s.withOpcode e₂.opcode) = .ok () (t.withOpcode e₂.opcode) := by
  cases hf : f.effect with
  | direct run =>
    have hrun (opcode : Byte) : f.execute operand (s.withOpcode opcode) =
        .ok () ((run operand s).withOpcode opcode) := by
      rw [execute_direct hf, direct_withOpcode hf]
    exact ⟨_, hrun _, hrun _⟩
  | through access =>
    obtain ⟨t, ht⟩ := access.perform_of_suits (suits_of_mem_encodings hf h₁) operand s
    have hdone := Access.done_of_perform ht
    have hrun {e : Encoding} (he : e ∈ f.encodings) (hmode : e.mode = e₁.mode) :
        f.execute operand (s.withOpcode e.opcode) = .ok () (t.withOpcode e.opcode) := by
      rw [execute_through (s := s.withOpcode e.opcode) hf (encoding?_of_mem_encodings he), hmode]
      exact hdone.withOpcode (detached_of_through hf) e.opcode
    exact ⟨t, hrun h₁ rfl, hrun h₂ hm.symm⟩

end Family

end Nmos6502
