import Nmos6502.Machine

/-! Starting over.

A load either puts a whole image into memory and powers on, or changes nothing at all. Whatever
the machine was in the middle of, an instruction, a request, a failure, is gone after a load that
is accepted: the machine is the one set up anew over the image (`load_toList`). A reset is the
load of the machine's own memory (`load_save`), so it keeps memory and nothing else. -/
namespace Nmos6502

theorem Memory.exists_toList {image : List Byte} (h : image.length = size) :
    ∃ memory : Memory, memory.toList = image :=
  ⟨_, toList_of_ofList (dif_pos h)⟩

namespace Machine
variable {image : List Byte}

/-! ### Loads that are rejected -/

theorem load_missing (m : Machine) : m.load none = (.error .missingData, m) := rfl

theorem load_mismatch (m : Machine) (h : image.length ≠ Memory.size) :
    m.load (some image) = (.error (.lengthMismatch ⟨Memory.size, image.length⟩), m) := by
  simp only [load, Memory.ofList, dif_neg h]

/-! ### Loads that are accepted -/

/-- The image of a memory loads, and the machine before it does not matter. -/
theorem load_toList (m : Machine) (memory : Memory) :
    m.load (some memory.toList) = (.ok (), ofMemory memory) := by
  simp only [load, Memory.ofList_toList]

theorem ofImage_toList (memory : Memory) : ofImage memory.toList = .ok (ofMemory memory) := by
  simp only [ofImage, load_toList]

theorem load_cases (m : Machine) (image : Option (List Byte)) :
    (m.load image).2 = m ∨ ∃ memory, (m.load image).2 = ofMemory memory := by
  cases image with
  | none => exact .inl rfl
  | some data =>
    by_cases h : data.length = Memory.size
    · obtain ⟨memory, rfl⟩ := Memory.exists_toList h
      exact .inr ⟨memory, congrArg Prod.snd (m.load_toList memory)⟩
    · exact .inl (congrArg Prod.snd (m.load_mismatch h))

theorem exists_ofMemory_of_ofImage {m : Machine} (h : ofImage image = .ok m) :
    ∃ memory, m = ofMemory memory := by
  by_cases hlength : image.length = Memory.size
  · obtain ⟨memory, rfl⟩ := Memory.exists_toList hlength
    exact ⟨memory, Except.ok.inj (h.symm.trans (ofImage_toList memory))⟩
  · simp only [ofImage, load_mismatch blank hlength] at h
    cases h

theorem load_eq_ok_iff (m : Machine) (image : Option (List Byte)) :
    (m.load image).1 = .ok () ↔ ∃ data, image = some data ∧ data.length = Memory.size := by
  cases image with
  | none => simp [load_missing]
  | some data =>
    by_cases h : data.length = Memory.size
    · obtain ⟨memory, rfl⟩ := Memory.exists_toList h
      simp [load_toList]
    · simp [load_mismatch m h, h]

/-- A machine set up anew over an image. -/
structure StartsFrom (m : Machine) (image : List Byte) : Prop where
  anew : ofImage image = .ok m
  powerOn : m = ofMemory m.cpu.memory
  save : m.save = image
  /-- The program counter is the word at the reset vector, low byte first. -/
  low : image[0xFFFE]? = some m.cpu.registers.pc.low
  high : image[0xFFFF]? = some m.cpu.registers.pc.high

theorem startsFrom_ofMemory (memory : Memory) : (ofMemory memory).StartsFrom memory.toList := by
  have hpc : (ofMemory memory).cpu.registers.pc =
      .ofBytes (memory.read 0xFFFE) (memory.read 0xFFFF) := rfl
  refine ⟨ofImage_toList memory, rfl, rfl, ?_, ?_⟩
  · rw [hpc, Word.low_ofBytes]
    exact memory.getElem?_toList 0xFFFE
  · rw [hpc, Word.high_ofBytes]
    exact memory.getElem?_toList 0xFFFF

/-! ### Resets -/

theorem load_save (m : Machine) : m.load (some m.save) = (.ok (), m.reset) :=
  m.load_toList m.cpu.memory

/-- **A load that is accepted erases all there was, and one that is rejected changes nothing.**
An image is accepted when there is one and it has a byte for every address. The machine is then
the one set up anew over it, whichever machine it was loaded into, and saves it again. Loading
what was saved is a reset, which keeps memory and need not be done twice. -/
theorem load_erases (m : Machine) (image : Option (List Byte)) :
    ((m.load image).1 = .ok () ↔ ∃ data, image = some data ∧ data.length = 65536) ∧
    (image = none → m.load image = (.error .missingData, m)) ∧
    (∀ data, image = some data → data.length ≠ 65536 →
      m.load image = (.error (.lengthMismatch ⟨65536, data.length⟩), m) ∧
        (Memory.LoadError.lengthMismatch ⟨65536, data.length⟩).message =
          "memory image must be exactly 65536 bytes, got " ++ toString data.length) ∧
    (∀ data, image = some data → data.length = 65536 →
      ∃ loaded : Machine, loaded.StartsFrom data ∧
        ∀ n : Machine, n.load image = (.ok (), loaded)) ∧
    m.load (some m.save) = (.ok (), m.reset) ∧
    m.reset.cpu.memory = m.cpu.memory ∧ m.reset.reset = m.reset := by
  refine ⟨m.load_eq_ok_iff image, ?missing, ?mismatch, ?accepted, m.load_save, rfl, rfl⟩
  case missing =>
    rintro rfl
    exact m.load_missing
  case mismatch =>
    rintro data rfl hlength
    exact ⟨m.load_mismatch hlength, rfl⟩
  case accepted =>
    rintro data rfl hlength
    obtain ⟨memory, rfl⟩ := Memory.exists_toList hlength
    exact ⟨ofMemory memory, startsFrom_ofMemory memory, fun n => n.load_toList memory⟩

end Machine

end Nmos6502
