import Nmos6502.Proofs.Cycle

/-! What an instruction does and what it leaves alone.

An instruction that succeeds either did the one thing its family does whatever the mode, or
carried out an access in the mode of its opcode (`Family.Executed`), and an access that
succeeds did one of seven things (`Access.Done`). What is done with the bytes after that
concerns registers and flags alone (`Access.Quiet`): memory is written in the access itself or
not at all, and the recorded opcode never changes (`Family.opcode_execute`). -/
namespace Nmos6502

namespace Access

/-- What an access that succeeds has done to a state. -/
inductive Done (mode : AddressingMode) (operand : Word) (s : Cpu) : Access → Cpu → Prop where
  | read {pays : Bool} {use : Byte → Cpu → Cpu} {v : Byte} {crossed : Bool}
      (found : s.readOperand mode operand = .ok (v, crossed)) :
      Done mode operand s (.read pays use) (use v (if pays && crossed then s.charge 1 else s))
  | modify {op : Flags → Byte → Alu.Result} {use : Byte → Cpu → Cpu} {v : Byte} {crossed : Bool}
      {p : Place} (found : s.readOperand mode operand = .ok (v, crossed))
      (place : s.place mode operand = .ok p) :
      Done mode operand s (.modify op use)
        (use (op s.flags v).value
          (Cpu.put {s with flags := (op s.flags v).flags} p (op s.flags v).value))
  | store {value : Registers → Byte} {p : Place} (place : s.place mode operand = .ok p) :
      Done mode operand s (.store value) (s.put p (value s.registers))
  | storeMasked {value : Registers → Byte} {registers : Registers → Registers} {target : Target}
      (found : s.effectiveAddress mode operand = .ok target) :
      Done mode operand s (.storeMasked value registers) {s with
        memory := s.memory.write target.address
          (value s.registers &&& (base s.memory mode operand).high + 1)
        registers := registers s.registers}
  | jump {target : Target} (found : s.effectiveAddress mode operand = .ok target) :
      Done mode operand s .jump {s with registers.pc := target.address}
  /-- An idle instruction without an operand. -/
  | rest (implicit : mode = .implicit) : Done mode operand s .idle s
  | idle {v : Byte} {crossed : Bool} (found : s.readOperand mode operand = .ok (v, crossed)) :
      Done mode operand s .idle (if crossed then s.charge 1 else s)

theorem done_of_perform {access : Access} {mode : AddressingMode} {operand : Word} {s t : Cpu}
    (h : access.perform mode operand s = .ok () t) : access.Done mode operand s t := by
  cases access with
  | read pays use =>
    cases hr : s.readOperand mode operand with
    | error fault => simp [perform, hr] at h
    | ok r =>
      simp only [perform, hr, EStateM.Result.ok.injEq, true_and] at h
      exact h ▸ .read hr
  | modify op use =>
    cases hr : s.readOperand mode operand with
    | error fault => simp [perform, Cpu.modifyOperand, hr] at h
    | ok r =>
      -- the flags do not matter to where the operand is
      have hp' : Cpu.place {s with flags := (op s.flags r.1).flags} mode operand =
          s.place mode operand := rfl
      cases hp : s.place mode operand with
      | error fault => simp [perform, Cpu.modifyOperand, Cpu.writeOperand, hr, hp', hp] at h
      | ok p =>
        simp only [perform, Cpu.modifyOperand, Cpu.writeOperand, hr, hp', hp,
          EStateM.Result.ok.injEq, true_and] at h
        exact h ▸ .modify hr hp
  | store value =>
    cases hp : s.place mode operand with
    | error fault => simp [perform, Cpu.writeOperand, hp] at h
    | ok p =>
      simp only [perform, Cpu.writeOperand, hp, EStateM.Result.ok.injEq, true_and] at h
      exact h ▸ .store hp
  | storeMasked value registers =>
    cases ht : s.effectiveAddress mode operand with
    | error fault => simp [perform, ht] at h
    | ok target =>
      simp only [perform, ht, EStateM.Result.ok.injEq, true_and] at h
      exact h ▸ .storeMasked ht
  | jump =>
    cases ht : s.effectiveAddress mode operand with
    | error fault => simp [perform, ht] at h
    | ok target =>
      simp only [perform, ht, EStateM.Result.ok.injEq, true_and] at h
      exact h ▸ .jump ht
  | idle =>
    by_cases hi : mode = .implicit
    · simp only [perform, if_pos hi, EStateM.Result.ok.injEq, true_and] at h
      exact h ▸ .rest hi
    · cases hr : s.readOperand mode operand with
      | error fault => simp [perform, hi, hr] at h
      | ok r =>
        simp only [perform, if_neg hi, hr, EStateM.Result.ok.injEq, true_and] at h
        exact h ▸ .idle hr

/-- What is done with the bytes leaves the memory and the recorded opcode. -/
def Quiet : Access → Prop
  | read _ use | modify _ use => ∀ v s, (use v s).memory = s.memory ∧ (use v s).opcode = s.opcode
  | _ => True

theorem Done.opcode {access : Access} {mode : AddressingMode} {operand : Word} {s t : Cpu}
    (h : access.Done mode operand s t) (hq : access.Quiet) : t.opcode = s.opcode := by
  cases h with
  | @read pays use v crossed found =>
    rw [(hq _ _).2]
    split <;> rfl
  | @modify op use v crossed p found place =>
    rw [(hq _ _).2]
    cases p <;> rfl
  | @store value p place => cases p <;> rfl
  | storeMasked found | jump found | rest implicit => rfl
  | idle found => split <;> rfl

end Access

namespace Family
variable {f : Family} {operand : Word} {s t : Cpu}

/-- What an instruction that succeeds has done. -/
inductive Executed (f : Family) (operand : Word) (s t : Cpu) : Prop where
  | direct (run : Word → Cpu → Cpu) (effect : f.effect = .direct run) (eq : t = run operand s)
  | through (access : Access) (e : Encoding) (effect : f.effect = .through access)
      (declared : f.encoding? s.opcode = some e) (done : access.Done e.mode operand s t)

theorem done_of_execute {access : Access} (h : f.effect = .through access) {e : Encoding}
    (he : f.encoding? s.opcode = some e) (ht : f.execute operand s = .ok () t) :
    access.Done e.mode operand s t := by
  rw [execute_through h he] at ht
  exact Access.done_of_perform ht

theorem executed (h : f.execute operand s = .ok () t) : f.Executed operand s t := by
  cases hf : f.effect with
  | direct run =>
    rw [execute_direct hf] at h
    cases h
    exact .direct run hf rfl
  | through access =>
    cases he : f.encoding? s.opcode with
    | none => simp [execute, hf, encoding, he] at h
    | some e => exact .through access e hf he (done_of_execute hf he h)

theorem quiet_of_through {access : Access} (h : f.effect = .through access) : access.Quiet := by
  cases f <;> cases h <;> first | trivial | exact fun _ _ => ⟨rfl, rfl⟩

theorem opcode_direct {run : Word → Cpu → Cpu} (h : f.effect = .direct run) (operand : Word)
    (s : Cpu) : (run operand s).opcode = s.opcode := by
  cases f <;> cases h
  case bcc | bcs | beq | bne | bmi | bpl | bvc | bvs =>
    unfold Cpu.branch
    split <;> rfl
  all_goals rfl

/-- No instruction changes the recorded opcode. -/
theorem opcode_execute (h : f.execute operand s = .ok () t) : t.opcode = s.opcode := by
  cases executed h with
  | direct run effect eq => rw [eq, opcode_direct effect]
  | through access e effect declared done => exact done.opcode (quiet_of_through effect)

end Family

namespace Cpu
variable {s t : Cpu} {i : Instruction}

theorem execute_of_instruct (hi : s.fetch = .ok i) (ht : s.instruct = .ok t) :
    i.encoding.family.execute i.operand (i.take s) = .ok () t := by
  simp only [instruct, hi] at ht
  split at ht
  · cases ht
  · cases ht
    assumption

theorem opcode_instruct (hi : s.fetch = .ok i) (ht : s.instruct = .ok t) :
    t.opcode = i.encoding.opcode :=
  Family.opcode_execute (execute_of_instruct hi ht)

end Cpu

end Nmos6502
