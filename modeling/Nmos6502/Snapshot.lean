import Nmos6502.Machine
import Nmos6502.Word.LittleEndian

/-! Snapshots: a machine's state as bytes.

The layout, numbers little-endian: four bytes of magic and four of version; A, X, Y,
SP; PC in two; the status byte; four bytes of cycles left; the opcode; a byte with the
hardware request in bit 0 and the software request in bit 1; eight bytes of total
cycles; then all of memory. A snapshot keeps the status byte as it is, and the flags
are taken out of it on restoring. Reading ignores what follows the memory and the other
bits of the request byte. -/
namespace Nmos6502

structure Snapshot where
  registers : Registers
  /-- The packed flags. -/
  status : Byte
  cyclesLeft : BitVec 32
  opcode : Byte
  hardwareRequest : Bool
  softwareRequest : Bool
  totalCycles : BitVec 64
  memory : Memory
deriving DecidableEq

namespace Snapshot

open BitVec (ofBool)

/-! ### Capturing and restoring -/

def ofCpu (s : Cpu) : Snapshot where
  registers := s.registers
  status := s.flags.toByte
  cyclesLeft := s.cyclesLeft
  opcode := s.opcode
  hardwareRequest := s.hardwareRequest
  softwareRequest := s.softwareRequest
  totalCycles := s.totalCycles
  memory := s.memory

def toCpu (s : Snapshot) : Cpu where
  registers := s.registers
  flags := .ofByte s.status
  memory := s.memory
  cyclesLeft := s.cyclesLeft
  opcode := s.opcode
  hardwareRequest := s.hardwareRequest
  softwareRequest := s.softwareRequest
  totalCycles := s.totalCycles

@[simp] theorem toCpu_ofCpu (s : Cpu) : (ofCpu s).toCpu = s := by
  simp [toCpu, ofCpu]

/-! ### The format -/

def magic : List Byte := [0x4D, 0x36, 0x35, 0x53]

def version : Nat := 1

/-- The bytes before the memory. -/
def headerSize : Nat := 29

def size : Nat := headerSize + Memory.size

/-- Why bytes are not a snapshot. -/
inductive DecodeError where
  | badMagic
  | unsupportedVersion (found : Nat)
  | truncated (lengths : Memory.Lengths)
deriving DecidableEq, Repr

def DecodeError.message : DecodeError → String
  | badMagic => "not a machine snapshot (bad magic number)"
  | unsupportedVersion found => s!"unsupported snapshot version {found}, expected {version}"
  | truncated ⟨expected, actual⟩ =>
    s!"snapshot truncated: expected {expected} bytes, got {actual}"

/-- The bytes before the memory, of a snapshot. -/
def header (s : Snapshot) : List Byte :=
  magic ++ LittleEndian.ofNat 4 version ++
    [s.registers.a, s.registers.x, s.registers.y, s.registers.sp] ++
    LittleEndian.ofNat 2 s.registers.pc.toNat ++ [s.status] ++
    LittleEndian.ofNat 4 s.cyclesLeft.toNat ++
    [s.opcode, 0#6 ++ ofBool s.softwareRequest ++ ofBool s.hardwareRequest] ++
    LittleEndian.ofNat 8 s.totalCycles.toNat

def encode (s : Snapshot) : List Byte := s.header ++ s.memory.toList

/-- Read what follows the version, if it is all there. -/
def decodeBody? : List Byte → Option Snapshot
  | a :: x :: y :: sp :: pc₀ :: pc₁ :: status :: left₀ :: left₁ :: left₂ :: left₃ :: opcode ::
      requests :: t₀ :: t₁ :: t₂ :: t₃ :: t₄ :: t₅ :: t₆ :: t₇ :: rest =>
    match Memory.ofList (rest.take Memory.size) with
    | .error _ => none
    | .ok memory => some
      { registers := ⟨a, x, y, sp, .ofBytes pc₀ pc₁⟩
        status
        cyclesLeft := BitVec.ofNat 32 (LittleEndian.toNat [left₀, left₁, left₂, left₃])
        opcode
        hardwareRequest := requests.isBitSet 0
        softwareRequest := requests.isBitSet 1
        totalCycles := BitVec.ofNat 64 (LittleEndian.toNat [t₀, t₁, t₂, t₃, t₄, t₅, t₆, t₇])
        memory }
  | _ => none

/-- Read a snapshot. The magic is judged as soon as it is there, then the version, and
only then whether the rest is. -/
def decode (data : List Byte) : Except DecodeError Snapshot :=
  let truncated := .error (.truncated ⟨size, data.length⟩)
  match data with
  | m₀ :: m₁ :: m₂ :: m₃ :: rest =>
    if [m₀, m₁, m₂, m₃] ≠ magic then .error .badMagic
    else
      match rest with
      | v₀ :: v₁ :: v₂ :: v₃ :: body =>
        let found := LittleEndian.toNat [v₀, v₁, v₂, v₃]
        if found ≠ version then .error (.unsupportedVersion found)
        else
          match decodeBody? body with
          | some s => .ok s
          | none => truncated
      | _ => truncated
  | _ => truncated

end Snapshot

namespace Machine

def snapshot (m : Machine) : Snapshot := .ofCpu m.cpu

/-- Put the machine into a captured state, with no failure and no instruction begun. -/
def restore (m : Machine) (snapshot : Snapshot) : Machine :=
  {m with cpu := snapshot.toCpu, current := none, failure := none}

end Machine

end Nmos6502
