import Nmos6502.FrontPanel
import Nmos6502.Proofs.Cycle
import Nmos6502.Proofs.Restart

/-! From a binary to the machine that runs it.

An image is built for a binary that has bytes and fits below the end of memory, and for no
other (`Image.build_of_fits`). It holds the binary at its address, zeroes around it, and the
address in the reset vector, also where the binary reaches the vector (`Image.Places`). So
power-on over it starts the program (`Machine.Starts`), and a front panel that is given the
binary gets that machine, whichever it had before, or keeps its own. -/
namespace Nmos6502

namespace Image
variable {address : Word} {binary : List Byte}

/-! ### Which binaries are built -/

/-- A binary that has bytes and ends before memory does. -/
structure Fits (address : Word) (binary : List Byte) : Prop where
  nonempty : binary ≠ []
  le_size : address.toNat + binary.length ≤ Memory.size

theorem build_nil (address : Word) : build address [] = .error .empty := rfl

theorem build_of_size_lt (hb : binary ≠ []) (h : Memory.size < address.toNat + binary.length) :
    build address binary = .error (.tooLarge address binary.length) := by
  simp [build, hb, h]

theorem build_of_fits (h : Fits address binary) :
    build address binary = .ok (memory address binary).toList := by
  simp [build, h.nonempty, Nat.not_lt_of_le h.le_size]

theorem build_cases (address : Word) (binary : List Byte) :
    binary = [] ∨ (binary ≠ [] ∧ Memory.size < address.toNat + binary.length) ∨
      Fits address binary := by
  by_cases hb : binary = []
  · exact .inl hb
  · rcases Nat.lt_or_ge Memory.size (address.toNat + binary.length) with h | h
    · exact .inr (.inl ⟨hb, h⟩)
    · exact .inr (.inr ⟨hb, h⟩)

theorem build_eq_empty_iff : build address binary = .error .empty ↔ binary = [] := by
  constructor
  · intro h
    rcases build_cases address binary with hb | ⟨hb, hlt⟩ | hf
    · exact hb
    · simp [build_of_size_lt hb hlt] at h
    · simp [build_of_fits hf] at h
  · rintro rfl
    exact build_nil address

theorem build_eq_tooLarge_iff :
    build address binary = .error (.tooLarge address binary.length) ↔
      binary ≠ [] ∧ Memory.size < address.toNat + binary.length := by
  constructor
  · intro h
    rcases build_cases address binary with rfl | hlt | hf
    · simp [build_nil] at h
    · exact hlt
    · simp [build_of_fits hf] at h
  · exact fun h => build_of_size_lt h.1 h.2

/-! ### What an image holds -/

/-- The program at its address, zeroes around it, and the reset vector pointing at it. -/
structure Places (image : List Byte) (address : Word) (binary : List Byte) : Prop where
  length : image.length = Memory.size
  low : image[0xFFFE]? = some address.low
  high : image[0xFFFF]? = some address.high
  inside : ∀ a : Word, a < 0xFFFE → address ≤ a → a.toNat < address.toNat + binary.length →
    image[a.toNat]? = binary[a.toNat - address.toNat]?
  outside : ∀ a : Word, a < 0xFFFE → a < address ∨ address.toNat + binary.length ≤ a.toNat →
    image[a.toNat]? = some 0

theorem read_memory_of_lt (h : binary.length ≤ Memory.size) {a : Word} (ha : a < 0xFFFE) :
    (memory address binary).read a = binary[(a - address).toNat]?.getD 0 := by
  have hlow : Interrupt.software.vector ≠ a := by
    show 0xFFFE ≠ a
    bv_omega
  have hhigh : Interrupt.software.vector + 1 ≠ a := by
    show 0xFFFF ≠ a
    bv_omega
  rw [memory, Memory.read_write_of_ne _ _ hhigh, Memory.read_write_of_ne _ _ hlow,
    Memory.read_writeBytes _ _ h, Memory.read_zero]

theorem readWord_memory (address : Word) (binary : List Byte) :
    (memory address binary).readWord Interrupt.software.vector = address := by
  have hne : Interrupt.software.vector + 1 ≠ Interrupt.software.vector := by decide
  rw [memory, Memory.readWord, Memory.read_write_self, Memory.read_write_of_ne _ _ hne,
    Memory.read_write_self, Word.ofBytes_low_high]

theorem places_memory (h : Fits address binary) :
    Places (memory address binary).toList address binary := by
  have hlength : binary.length ≤ Memory.size := Nat.le_of_add_left_le h.le_size
  have hvector := readWord_memory address binary
  refine ⟨Memory.length_toList _, ?low, ?high, fun a ha hle hlt => ?inside,
    fun a ha hout => ?outside⟩
  case low =>
    have hlow : (memory address binary).read 0xFFFE = address.low :=
      (Word.low_ofBytes _ _).symm.trans (congrArg Word.low hvector)
    rw [← hlow]
    exact Memory.getElem?_toList _ 0xFFFE
  case high =>
    have hhigh : (memory address binary).read 0xFFFF = address.high :=
      (Word.high_ofBytes _ _).symm.trans (congrArg Word.high hvector)
    rw [← hhigh]
    exact Memory.getElem?_toList _ 0xFFFF
  case inside =>
    have hdistance : (a - address).toNat = a.toNat - address.toNat := BitVec.toNat_sub_of_le hle
    have hin : a.toNat - address.toNat < binary.length := by
      have : address.toNat ≤ a.toNat := hle
      omega
    rw [Memory.getElem?_toList, read_memory_of_lt hlength ha, hdistance,
      List.getElem?_eq_getElem hin, Option.getD_some]
  case outside =>
    have hfar : binary.length ≤ (a - address).toNat := by
      have hsize : address.toNat + binary.length ≤ 65536 := h.le_size
      rcases hout with hbefore | hbehind
      · bv_omega
      · bv_omega
    rw [Memory.getElem?_toList, read_memory_of_lt hlength ha, List.getElem?_eq_none hfar,
      Option.getD_none]

/-- Below the vector the first byte of the program is at its address. -/
theorem head?_eq_read (h : Fits address binary) (ha : address < 0xFFFE) :
    binary.head? = some ((memory address binary).read address) := by
  have hlength : binary.length ≤ Memory.size := Nat.le_of_add_left_le h.le_size
  rw [read_memory_of_lt hlength ha, BitVec.sub_self]
  cases hb : binary with
  | nil => exact absurd hb h.nonempty
  | cons b rest => rfl

end Image

namespace Machine
variable {address : Word} {binary : List Byte}

/-! ### Power-on over an image -/

/-- The first cycle looks for an instruction at the address, and this is the byte it finds. -/
def FetchesFirst (m : Machine) (address : Word) (b : Byte) : Prop :=
  (∃ i t, m.Begins i t ∧ i.address = address ∧ i.encoding.opcode = b) ∨
    m.Undecodable ∧ m.cycle.2.failure = some ⟨address, .unknownOpcode b⟩

/-- A machine at power-on with a program to run. -/
structure Starts (m : Machine) (address : Word) (binary : List Byte) : Prop where
  powerOn : m = ofMemory m.cpu.memory
  registers : m.cpu.registers = .powerOn address
  flags : m.cpu.flags = .clear
  running : m.cpu.isRunning = true ↔ address ≠ Cpu.haltAddress
  /-- A program that starts in the vector starts with its own address instead. -/
  first : address < 0xFFFE → ∃ b, binary.head? = some b ∧ m.FetchesFirst address b

/-- Nothing is pending at power-on. -/
theorem takeInterrupt_ofMemory (memory : Memory) :
    (ofMemory memory).cpu.takeInterrupt = (ofMemory memory).cpu :=
  Cpu.takeInterrupt_of_none rfl

theorem fetchesFirst_ofMemory (memory : Memory)
    (h : (ofMemory memory).cpu.registers.pc ≠ Cpu.haltAddress) :
    (ofMemory memory).FetchesFirst (ofMemory memory).cpu.registers.pc
      (memory.read (ofMemory memory).cpu.registers.pc) := by
  have hserved := takeInterrupt_ofMemory memory
  have hb : (ofMemory memory).AtBoundary := ⟨rfl, rfl, h⟩
  cases hb.beginning with
  | vectored halt eq =>
    rw [hserved] at halt
    exact absurd halt h
  | undeclared undecodable eq =>
    refine .inr ⟨undecodable, ?_⟩
    rw [eq, stalled, hserved]
    rfl
  | retired i t begins eq =>
    have hf := begins.fetch
    rw [hserved] at hf
    obtain ⟨he, ha, -⟩ := Instruction.fetch_eq_ok_iff.mp hf
    exact .inl ⟨i, t, begins, ha, Encoding.opcode_of_ofOpcode? he⟩

theorem starts_ofMemory (h : Image.Fits address binary) :
    (ofMemory (Image.memory address binary)).Starts address binary := by
  have hpc : (ofMemory (Image.memory address binary)).cpu.registers.pc = address :=
    Image.readWord_memory address binary
  refine ⟨rfl, congrArg Registers.powerOn hpc, rfl, ?running, fun ha => ?first⟩
  case running => simp [Cpu.isRunning, hpc]
  case first =>
    have hrunning : address ≠ Cpu.haltAddress := by
      show address ≠ 0xFFFF
      bv_omega
    have hfetch := fetchesFirst_ofMemory (Image.memory address binary) (by rwa [hpc])
    rw [hpc] at hfetch
    exact ⟨_, Image.head?_eq_read h ha, hfetch⟩

end Machine

namespace FrontPanel
variable {address : Word} {binary : List Byte}

theorem loadProgram_of_fits (p : FrontPanel) (h : Image.Fits address binary) :
    p.loadProgram address binary = (.ok (), ⟨.ofMemory (Image.memory address binary)⟩) := by
  simp only [loadProgram, Image.build_of_fits h, load, Machine.load_toList]

theorem loadProgram_of_error (p : FrontPanel) {e : Image.BuildError}
    (h : Image.build address binary = .error e) :
    p.loadProgram address binary = (.error e.message, p) := by
  simp only [loadProgram, h]

end FrontPanel

/-- **From a binary to the machine that runs it.** An empty binary is rejected, then one that
runs past the end of memory, and every other one is built into an image of all of memory: the
binary at its address, zeroes around it, and the address in the reset vector, whatever the binary
has there. The image loads into a machine at power-on at that address. A front panel given the
binary has that machine then, whatever it had before, or keeps what it had if none is built. -/
theorem Image.build_starts (address : Word) (binary : List Byte) :
    (build address binary = .error .empty ↔ binary = []) ∧
    (build address binary = .error (.tooLarge address binary.length) ↔
      binary ≠ [] ∧ 65536 < address.toNat + binary.length) ∧
    (binary ≠ [] → address.toNat + binary.length ≤ 65536 → ∃ image m,
      build address binary = .ok image ∧ Places image address binary ∧
      Machine.ofImage image = .ok m ∧ m.save = image ∧ m.Starts address binary ∧
      ∀ p : FrontPanel, p.loadProgram address binary = (.ok (), ⟨m⟩)) ∧
    ∀ e, build address binary = .error e →
      ∀ p : FrontPanel, p.loadProgram address binary = (.error e.message, p) := by
  refine ⟨build_eq_empty_iff, build_eq_tooLarge_iff, fun hb hle => ?_,
    fun e he p => p.loadProgram_of_error he⟩
  have hf : Fits address binary := ⟨hb, hle⟩
  let memory := memory address binary
  exact ⟨memory.toList, .ofMemory memory, build_of_fits hf, places_memory hf,
    Machine.ofImage_toList memory, rfl, Machine.starts_ofMemory hf,
    fun p => p.loadProgram_of_fits hf⟩

end Nmos6502
