import Nmos6502.Proofs.Frame

/-! Accesses by address.

Of a mode that names an address an access learns three things: the address, whether the index
left the page on the way, and the page before indexing. `Access.performAt` is the access done
with these, whatever mode they came from (`perform_eq_performAt`), and only a masked store asks
for the page. An immediate byte is used as if some address held it (`perform_immediate`).

What is done with the bytes after that concerns registers and flags alone, so it is the same
over any memory and under any opcode on record (`Access.Detached`). -/
namespace Nmos6502

namespace Cpu

def withMemory (s : Cpu) (memory : Memory) : Cpu := {s with memory}

def withOpcode (s : Cpu) (opcode : Byte) : Cpu := {s with opcode}

variable {s : Cpu} {mode : AddressingMode} {operand : Word}

/-- A place is the accumulator or the cell at the effective address. -/
theorem effectiveAddress_of_place {p : Place} (h : s.place mode operand = .ok p) :
    (mode = .accumulator ∧ p = .accumulator) ∨
      ∃ l, p = .cell l ∧ s.effectiveAddress mode operand = .ok (l.target s.memory) := by
  cases mode <;> cases h <;> first | exact .inl ⟨rfl, rfl⟩ | exact .inr ⟨_, rfl, rfl⟩

theorem readOperand_of_place {p : Place} (h : s.place mode operand = .ok p) :
    s.readOperand mode operand = .ok (s.get p) := by
  cases mode <;> cases h <;> rfl

/-- An operand to read or write that has an address is the cell there. -/
theorem place_of_effectiveAddress {target : Target}
    (h : s.effectiveAddress mode operand = .ok target)
    (hm : mode.isReadable = true ∨ mode.isWritable = true) :
    ∃ l, s.place mode operand = .ok (.cell l) ∧ l.target s.memory = target ∧
      s.readOperand mode operand = .ok (s.memory.read target.address, target.crossed) := by
  cases mode <;> cases h
  case indirect => simp [AddressingMode.isReadable, AddressingMode.isWritable] at hm
  all_goals exact ⟨_, rfl, rfl, rfl⟩

end Cpu

namespace Access

/-- An access carried out at an address, with the page of the address before indexing. -/
def performAt (access : Access) (target : Target) (page : Byte) (s : Cpu) : Cpu :=
  match access with
  | read pays use =>
    use (s.memory.read target.address) (if pays && target.crossed then s.charge 1 else s)
  | modify op use =>
    let result := op s.flags (s.memory.read target.address)
    use result.value {s with
      flags := result.flags
      memory := s.memory.write target.address result.value}
  | store value => {s with memory := s.memory.write target.address (value s.registers)}
  | storeMasked value registers => {s with
      memory := s.memory.write target.address (value s.registers &&& page + 1)
      registers := registers s.registers}
  | jump => {s with registers.pc := target.address}
  | idle => if target.crossed then s.charge 1 else s

/-- Whether the page before indexing matters. -/
def masks : Access → Bool
  | storeMasked _ _ => true
  | _ => false

variable {access : Access} {mode : AddressingMode} {operand : Word} {s : Cpu} {target : Target}

/-- **Where a mode names an address, the access is the one at that address.** -/
theorem perform_eq_performAt (hs : access.suits mode = true)
    (ht : s.effectiveAddress mode operand = .ok target) :
    access.perform mode operand s =
      .ok () (access.performAt target (base s.memory mode operand).high s) := by
  cases access with
  | read pays use =>
    obtain ⟨l, -, -, hr⟩ := Cpu.place_of_effectiveAddress ht (.inl hs)
    simp only [perform, hr, performAt]
  | modify op use =>
    obtain ⟨l, hp, rfl, hr⟩ :=
      Cpu.place_of_effectiveAddress ht (.inl (Bool.and_eq_true_iff.mp hs).1)
    have hp' (flags : Flags) : Cpu.place {s with flags} mode operand = .ok (.cell l) := hp
    simp only [perform, Cpu.modifyOperand, Cpu.writeOperand, hr, hp']
    rfl
  | store value =>
    obtain ⟨l, hp, rfl, -⟩ := Cpu.place_of_effectiveAddress ht (.inr hs)
    simp only [perform, Cpu.writeOperand, hp]
    rfl
  | storeMasked value registers | jump => simp only [perform, ht, performAt]
  | idle =>
    have hi : mode ≠ .implicit := by
      rintro rfl
      cases ht
    have hread : mode.isReadable = true := by simpa [suits, hi] using hs
    obtain ⟨l, -, -, hr⟩ := Cpu.place_of_effectiveAddress ht (.inl hread)
    simp only [perform, if_neg hi, hr, performAt]

/-- An access that may have an immediate byte does with it what it does with a byte in memory,
and pays for no page. -/
theorem perform_immediate (hs : access.suits .immediate = true) {address : Word}
    (hv : s.memory.read address = operand.low) (page : Byte) :
    access.perform .immediate operand s = .ok () (access.performAt (.direct address) page s) := by
  cases access with
  | read pays use => simp [perform, performAt, Cpu.readOperand, Target.direct, hv]
  | idle => simp [perform, performAt, Cpu.readOperand, Target.direct]
  | modify | store | storeMasked | jump => cases hs

/-- Unless the store is masked, the page before indexing does not matter. -/
theorem performAt_page (h : access.masks = false) (target : Target) (page page' : Byte) (s : Cpu) :
    access.performAt target page s = access.performAt target page' s := by
  cases access <;> first | rfl | cases h

/-! ### What is done with the bytes -/

/-- What is done with the bytes is done over any memory and under any opcode alike. -/
def Detached : Access → Prop
  | read _ use | modify _ use => ∀ v s,
      (∀ memory, use v (Cpu.withMemory s memory) = (use v s).withMemory memory) ∧
        ∀ opcode, use v (Cpu.withOpcode s opcode) = (use v s).withOpcode opcode
  | _ => True

end Access

theorem Family.detached_of_through {f : Family} {access : Access} (h : f.effect = .through access) :
    access.Detached := by
  cases f <;> cases h <;> first | trivial | exact fun _ _ => ⟨fun _ => rfl, fun _ => rfl⟩

end Nmos6502
