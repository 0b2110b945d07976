import Nmos6502.Image
import Nmos6502.Instruction.Text
import Nmos6502.Snapshot
import Nmos6502.Word.Rounding

/-! A front panel: the machine behind switches and lamps.

Whatever can fail answers with a line of text, and leaves the machine as it was
(`load_failed`, `loadProgram_failed`, `restore_failed`). The lamps show the registers
and the flags one by one; the cycle counter has room for 53 significant bits and is
rounded to them. -/
namespace Nmos6502

structure FrontPanel where
  machine : Machine
deriving DecidableEq, Inhabited

namespace FrontPanel

/-- A panel before a machine over zeroed memory. -/
def new : FrontPanel := ⟨.blank⟩

/-! ### Loading -/

def load (p : FrontPanel) (image : Option (List Byte)) : Except String Unit × FrontPanel :=
  match p.machine.load image with
  | (.ok (), machine) => (.ok (), ⟨machine⟩)
  | (.error e, machine) => (.error e.message, ⟨machine⟩)

/-- Build the image of a program at an address and load it. -/
def loadProgram (p : FrontPanel) (address : Word) (binary : List Byte) :
    Except String Unit × FrontPanel :=
  match Image.build address binary with
  | .ok image => p.load (some image)
  | .error e => (.error e.message, p)

def save (p : FrontPanel) : List Byte := p.machine.save

def reset (p : FrontPanel) : FrontPanel := ⟨p.machine.reset⟩

/-! ### Running -/

def cycle (p : FrontPanel) : Bool × FrontPanel :=
  let (advanced, machine) := p.machine.cycle
  (advanced, ⟨machine⟩)

def run (p : FrontPanel) (budget : Nat) : Nat × FrontPanel :=
  let (count, machine) := p.machine.run budget
  (count, ⟨machine⟩)

def requestHardware (p : FrontPanel) : FrontPanel := ⟨p.machine.requestHardware⟩

def requestSoftware (p : FrontPanel) : FrontPanel := ⟨p.machine.requestSoftware⟩

/-- The text of the instruction at the program counter. -/
def disassemble (p : FrontPanel) : Except String String :=
  match p.machine.cpu.fetch with
  | .ok i => .ok i.text
  | .error fault => .error fault.message

/-! ### Snapshots -/

def snapshot (p : FrontPanel) : List Byte := p.machine.snapshot.encode

def restore (p : FrontPanel) (data : List Byte) : Except String Unit × FrontPanel :=
  match Snapshot.decode data with
  | .ok snapshot => (.ok (), ⟨p.machine.restore snapshot⟩)
  | .error e => (.error e.message, p)

/-! ### Memory -/

def read (p : FrontPanel) (address : Word) : Byte := p.machine.cpu.memory.read address

def write (p : FrontPanel) (address : Word) (value : Byte) : FrontPanel :=
  {p with machine.cpu.memory := p.machine.cpu.memory.write address value}

/-- The bytes of a page, for display. -/
def page (p : FrontPanel) (page : Byte) : List Byte := p.machine.cpu.memory.page page

/-! ### Lamps -/

/-- What the lamps show. -/
structure Lamps where
  registers : Registers
  status : Byte
  flags : Flags
  cyclesLeft : Nat
  /-- The total cycles, rounded to 53 bits. -/
  totalCycles : Nat
  isRunning : Bool
  /-- What stopped the machine, in words. -/
  failure : Option String
deriving DecidableEq, Repr

def lamps (p : FrontPanel) : Lamps where
  registers := p.machine.cpu.registers
  status := p.machine.cpu.flags.toByte
  flags := p.machine.cpu.flags
  cyclesLeft := p.machine.cpu.cyclesLeft.toNat
  totalCycles := roundToBits 53 p.machine.cpu.totalCycles.toNat
  isRunning := p.machine.cpu.isRunning
  failure := p.machine.failure.map (·.message)

/-! ### What fails changes nothing -/

theorem load_failed {p q : FrontPanel} {image : Option (List Byte)} {message : String}
    (h : p.load image = (.error message, q)) : q = p := by
  unfold load Machine.load at h
  cases image with
  | none => exact (Prod.mk.inj h).2.symm
  | some image =>
    cases hm : Memory.ofList image with
    | ok memory => simp [hm] at h
    | error e =>
      simp only [hm] at h
      exact (Prod.mk.inj h).2.symm

theorem loadProgram_failed {p q : FrontPanel} {address : Word} {binary : List Byte}
    {message : String} (h : p.loadProgram address binary = (.error message, q)) : q = p := by
  unfold loadProgram at h
  split at h
  · exact load_failed h
  · exact (Prod.mk.inj h).2.symm

theorem restore_failed {p q : FrontPanel} {data : List Byte} {message : String}
    (h : p.restore data = (.error message, q)) : q = p := by
  unfold restore at h
  split at h
  · cases h
  · exact (Prod.mk.inj h).2.symm

end FrontPanel

end Nmos6502
