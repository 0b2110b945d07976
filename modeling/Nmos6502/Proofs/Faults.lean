import Nmos6502.Proofs.Execution

/-! When an instruction fails, and what it leaves then.

Some families ask their declarations for the mode of the recorded opcode (`Family.consulting`),
and the others never look at it. A family that asks and finds no declaration refuses the opcode
before it does anything else (`Family.Refuses`), so the state is as it was. Nothing more can go
wrong: the modes that a family declares suit its way of using an operand, so none of them turns
out to name no place when half of the work is done (`Family.execute_of_accepted`). -/
namespace Nmos6502

namespace Family
variable {f : Family} {s : Cpu}

/-- The families that take the mode of the recorded opcode from their declarations. -/
def consulting : List Family :=
  [adc, sbc, and, ora, eor, cmp, cpx, cpy, bit,
    asl, lsr, rol, ror,
    lda, ldx, ldy, sta, stx, sty,
    inc, dec, jmp, nop,
    slo, rla, sre, rra, dcp, isc, sax, lax,
    las, sha, shx, shy, tas]

/-- Asked for the mode of an opcode, the family does not know it. -/
def Refuses (f : Family) (opcode : Byte) : Prop := f ∈ consulting ∧ f.declares opcode = false

/-- A family asks for the mode if it works through an operand. -/
theorem mem_consulting_of_through {access : Access} (h : f.effect = .through access) :
    f ∈ consulting := by
  cases f <;> cases h <;> decide

theorem not_mem_consulting_of_direct {run : Word → Cpu → Cpu} (h : f.effect = .direct run) :
    f ∉ consulting := by
  cases f <;> cases h <;> decide

theorem execute_of_refuses (h : f.Refuses s.opcode) (operand : Word) :
    f.execute operand s = .error (.unknownOpcode s.opcode) s := by
  obtain ⟨hf, hd⟩ := h
  have hnone : f.encoding? s.opcode = none := by
    rw [← Option.not_isSome_iff_eq_none, isSome_encoding?, hd]
    exact Bool.false_ne_true
  cases he : f.effect with
  | direct run => exact absurd hf (not_mem_consulting_of_direct he)
  | through access => simp only [execute, he, encoding, hnone]

theorem execute_of_accepted (h : ¬ f.Refuses s.opcode) (operand : Word) :
    ∃ t, f.execute operand s = .ok () t := by
  cases he : f.effect with
  | direct run => exact ⟨_, execute_direct he operand s⟩
  | through access =>
    have hd : f.declares s.opcode = true :=
      Bool.not_eq_false _ ▸ fun hd => h ⟨mem_consulting_of_through he, hd⟩
    rw [← isSome_encoding?] at hd
    obtain ⟨e, hsome⟩ := Option.isSome_iff_exists.mp hd
    obtain ⟨t, ht, -⟩ := execute_spec hsome operand
    exact ⟨t, ht⟩

/-- An instruction fails only by being refused. -/
theorem refuses_of_error {operand : Word} {fault : Fault} {t : Cpu}
    (h : f.execute operand s = .error fault t) : f.Refuses s.opcode := by
  by_cases hr : f.Refuses s.opcode
  · exact hr
  · obtain ⟨u, hu⟩ := execute_of_accepted hr operand
    rw [hu] at h
    cases h

/-- **An instruction fails as a whole or not at all.** Whatever opcode is on record, a family that
fails leaves the state as it was and calls the opcode unknown; it fails exactly when it asks its
declarations for the opcode and is not told, and never for a mode. The other families do not fail
on any opcode, and no fetched instruction does with its own on record. -/
theorem execute_atomic (f : Family) (s : Cpu) (operand : Word) :
    (∀ fault t, f.execute operand s = .error fault t →
      t = s ∧ fault = .unknownOpcode s.opcode) ∧
    ((∃ fault t, f.execute operand s = .error fault t) ↔
      f ∈ consulting ∧ f.declares s.opcode = false) ∧
    (∀ opcode mode t, f.execute operand s ≠ .error (.invalidMode opcode mode) t) ∧
    (f ∉ consulting → ∃ t, f.execute operand s = .ok () t) ∧
    ∀ (m : Memory) (address : Word) (i : Instruction), Instruction.fetch m address = .ok i →
      s.opcode = i.encoding.opcode → ∃ t, i.execute s = .ok () t := by
  have hatomic : ∀ fault t, f.execute operand s = .error fault t →
      t = s ∧ fault = .unknownOpcode s.opcode := by
    intro fault t h
    rw [execute_of_refuses (refuses_of_error h)] at h
    cases h
    exact ⟨rfl, rfl⟩
  refine ⟨hatomic, ⟨?_, ?_⟩, ?_, ?_, ?_⟩
  · rintro ⟨fault, t, h⟩
    exact refuses_of_error h
  · intro h
    exact ⟨_, _, execute_of_refuses h operand⟩
  · intro opcode mode t h
    have hfault := (hatomic _ _ h).2
    cases hfault
  · intro hf
    exact execute_of_accepted (fun h => hf h.1) operand
  · intro m address i hi ho
    obtain ⟨t, ht, -⟩ := execute_spec (ho ▸ Instruction.encoding?_of_fetch hi) i.operand
    exact ⟨t, ht⟩

/-- A store that moves the stack pointer is next, with the opcode of another store on record. -/
def misled : Cpu :=
  {Cpu.powerOn (Memory.zero.writeBytes 0x0010 [0x9B, 0x00, 0x02]) with
    registers := ⟨0x0F, 0x3C, 0, 0xFF, 0x0010⟩
    opcode := 0x85}

/-- Refused, the store leaves the stack pointer; it moves under its own opcode, and a transfer
moves it under any. -/
theorem misled_refused :
    tas.execute 0x0200 misled = .error (.unknownOpcode 0x85) misled ∧
    (∃ t, txs.execute 0x0200 misled = .ok () t) ∧
    ∃ i t, misled.fetch = .ok i ∧ i.encoding.family = tas ∧
      i.execute {misled with opcode := 0x9B} = .ok () t ∧ t.registers.sp = 0x0C := by
  obtain ⟨hatomic, hfails, -⟩ := execute_atomic tas misled 0x0200
  obtain ⟨-, -, -, hfree, -⟩ := execute_atomic txs misled 0x0200
  obtain ⟨-, -, -, -, hfetched⟩ := execute_atomic tas {misled with opcode := 0x9B} 0x0200
  refine ⟨?_, hfree (by decide), ?_⟩
  · obtain ⟨fault, t, h⟩ := hfails.mpr ⟨by decide, by decide⟩
    obtain ⟨rfl, rfl⟩ := hatomic fault t h
    exact h
  · have hfetch : misled.fetch = .ok ⟨0x0010, tas.unofficial 0x9B .absoluteY 5, 0x0200⟩ :=
      Instruction.fetch_eq_ok_iff.mpr ⟨by decide, rfl, by decide⟩
    obtain ⟨t, ht⟩ := hfetched _ _ _ hfetch rfl
    refine ⟨_, t, hfetch, rfl, ht, ?_⟩
    cases ht
    rfl

end Family

end Nmos6502
