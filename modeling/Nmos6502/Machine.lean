import Nmos6502.Cpu.Service
import Nmos6502.Instruction

/-! The machine, stepped by clock cycles.

An instruction happens as a whole on the first of its cycles, and the rest drain
without touching registers or memory. So a cycle finds the machine in one of four
phases: `draining` while cycles are left; at a `boundary`, where interrupts are looked
for and the next instruction begins; `halted` at the halt address; or `failed`, with a
failure stored. The cycle advances the machine in the first two, but for an instruction
that cannot be fetched at a boundary, which stores a failure; in the last two nothing
changes (`cycle_of_failed`, `cycle_of_halted`). Loading, resetting, restoring or
clearing the failure sets the machine going again. -/
namespace Nmos6502

/-- An instruction that could not be fetched or carried out, with its address. -/
structure Failure where
  address : Word
  cause : Fault
deriving DecidableEq, Repr

def Failure.message (f : Failure) : String := s!"Program execution failed at 0x{f.address.hex}"

/-- Why a run to the halt address did not get there. -/
inductive RunError where
  | failed (failure : Failure)
  | cycleLimit (limit : Nat)
deriving DecidableEq, Repr

def RunError.message : RunError → String
  | failed failure => failure.message
  | cycleLimit limit => s!"Program did not halt within {limit} cycles"

structure Machine where
  cpu : Cpu
  /-- The instruction begun last; none on a machine set up anew, or after a boundary
  that began none. -/
  current : Option Instruction
  /-- What stopped the machine. -/
  failure : Option Failure
deriving DecidableEq

namespace Machine

/-! ### Setting up -/

/-- A machine at power-on over a memory. -/
def ofMemory (memory : Memory) : Machine := ⟨.powerOn memory, none, none⟩

/-- A machine at power-on over zeroed memory. -/
def blank : Machine := ofMemory .zero

instance : Inhabited Machine := ⟨blank⟩

/-- Replace all of memory and power on; what cannot be loaded changes nothing. -/
def load (m : Machine) (image : Option (List Byte)) : Except Memory.LoadError Unit × Machine :=
  match image with
  | none => (.error .missingData, m)
  | some image =>
    match Memory.ofList image with
    | .error e => (.error e, m)
    | .ok memory => (.ok (), ofMemory memory)

/-- A machine at power-on over an image. -/
def ofImage (image : List Byte) : Except Memory.LoadError Machine :=
  match blank.load (some image) with
  | (.ok (), m) => .ok m
  | (.error e, _) => .error e

/-- The image of all of memory. -/
def save (m : Machine) : List Byte := m.cpu.memory.toList

/-- Power on again over the same memory. -/
def reset (m : Machine) : Machine := ofMemory m.cpu.memory

/-- Forget a failure, so that cycles advance the machine again. -/
def clearFailure (m : Machine) : Machine := {m with failure := none}

/-! ### Requests -/

def requestHardware (m : Machine) : Machine := {m with cpu.hardwareRequest := true}

def requestSoftware (m : Machine) : Machine := {m with cpu.softwareRequest := true}

/-- Serve the interrupt that may be served, as a boundary does. -/
def takeInterrupt (m : Machine) : Machine := {m with cpu := m.cpu.takeInterrupt}

/-! ### Cycles -/

/-- What a cycle finds. -/
inductive Phase where
  | failed
  | draining
  | halted
  | boundary
deriving DecidableEq, Repr

def phase (m : Machine) : Phase :=
  if m.failure.isSome then .failed
  else if m.cpu.isMidInstruction then .draining
  else if m.cpu.isRunning then .boundary
  else .halted

/-- Let one cycle pass. -/
def tick (m : Machine) : Machine := {m with cpu := m.cpu.tick}

/-- Serve an interrupt if one may be served, then begin and carry out the instruction
at the program counter; but at the halt address, where a vector may point, nothing. -/
def begin (m : Machine) : Machine :=
  let s := m.cpu.takeInterrupt
  if s.isRunning then
    match s.fetch with
    | .error cause => ⟨s, none, some ⟨s.registers.pc, cause⟩⟩
    | .ok i =>
      match i.execute (i.begin s) with
      | .ok () s => ⟨s, some i, none⟩
      | .error cause s => ⟨s, some i, some ⟨i.address, cause⟩⟩
  else ⟨s, none, none⟩

/-- One clock cycle; the answer tells whether it advanced the machine. -/
def cycle (m : Machine) : Bool × Machine :=
  match m.phase with
  | .failed | .halted => (false, m)
  | .draining => (true, m.tick)
  | .boundary =>
    let m := m.begin
    if m.failure.isSome then (false, m) else (true, m.tick)

/-- One clock cycle, and what an observer makes of the state it leaves. -/
def cycleWith {α : Type} (observe : Cpu → α) (m : Machine) : (Bool × α) × Machine :=
  let (advanced, m) := m.cycle
  ((advanced, observe m.cpu), m)

theorem cycle_of_failed {m : Machine} (h : m.phase = .failed) : m.cycle = (false, m) := by
  simp [cycle, h]

theorem cycle_of_halted {m : Machine} (h : m.phase = .halted) : m.cycle = (false, m) := by
  simp [cycle, h]

theorem cycle_of_draining {m : Machine} (h : m.phase = .draining) : m.cycle = (true, m.tick) := by
  simp [cycle, h]

theorem cycle_of_boundary {m : Machine} (h : m.phase = .boundary) :
    m.cycle = if m.begin.failure.isSome then (false, m.begin) else (true, m.begin.tick) := by
  simp [cycle, h]

/-! ### Runs -/

/-- Up to so many cycles, counted on from `count`, until one does not advance. -/
def runFrom (count : Nat) : Nat → Machine → Nat × Machine
  | 0, m => (count, m)
  | budget + 1, m =>
    match m.cycle with
    | (true, m) => runFrom (count + 1) budget m
    | (false, m) => (count, m)

/-- Up to `budget` cycles, until one does not advance; the answer counts those that did. -/
def run (m : Machine) (budget : Nat) : Nat × Machine := runFrom 0 budget m

theorem runFrom_eq (count budget : Nat) (m : Machine) :
    runFrom count budget m = (count + (m.run budget).1, (m.run budget).2) := by
  induction budget generalizing count m with
  | zero => rfl
  | succ budget ih =>
    simp only [run, runFrom]
    split
    · rw [ih, ih (0 + 1)]
      simp only [Prod.mk.injEq, and_true]
      omega
    · rfl

@[simp] theorem run_zero (m : Machine) : m.run 0 = (0, m) := rfl

theorem run_succ (m : Machine) (budget : Nat) :
    m.run (budget + 1) =
      if m.cycle.1 then ((m.cycle.2.run budget).1 + 1, (m.cycle.2.run budget).2)
      else (0, m.cycle.2) := by
  rw [run, runFrom]
  split <;> rename_i m' h
  · rw [runFrom_eq]
    simp [h, Nat.add_comm]
  · simp [h]

/-- One cycle and, if it advanced, the rest of the cycles of the instruction it is in. -/
def step (m : Machine) : Nat × Machine :=
  match m.cycle with
  | (true, m) => runFrom 1 m.cpu.cyclesLeft.toNat m
  | (false, m) => (0, m)

/-- Run to the halt address in at most `limit` cycles; the answer counts them. -/
def runUntilHalt (m : Machine) (limit : Nat) : Except RunError Nat × Machine :=
  let (count, m) := m.run limit
  match m.failure with
  | some failure => (.error (.failed failure), m)
  | none =>
    if m.cpu.isMidInstruction || m.cpu.isRunning then (.error (.cycleLimit limit), m)
    else (.ok count, m)

end Machine

end Nmos6502
