import Nmos6502.Fault
import Nmos6502.Opcode.Family

/-! The opcode matrix.

Each family declares its opcodes, one `Encoding` to each: addressing mode, base
cycles, and whether the manuals document it. Cycles for a crossed page or a taken
branch are not in the base. The regular corners of the matrix share one layout and
differ by a base opcode (`readGroup`, `shiftGroup`, `comboGroup`).

No byte is declared twice, so the first declaration found is the only one
(`ofOpcode?_opcode`); twelve bytes are declared by nobody (`declaredCount_eq`), and
a machine that comes to one stops with a failure. -/
namespace Nmos6502

structure Encoding where
  opcode : Byte
  family : Family
  mode : AddressingMode
  /-- Base cycles, without penalties. -/
  cycles : Nat
  documented : Bool
deriving DecidableEq, Repr

/-- The length of the instruction in bytes. -/
def Encoding.size (e : Encoding) : Nat := e.mode.size

namespace Family

def official (f : Family) (opcode : Byte) (mode : AddressingMode) (cycles : Nat) : Encoding :=
  ⟨opcode, f, mode, cycles, true⟩

def unofficial (f : Family) (opcode : Byte) (mode : AddressingMode) (cycles : Nat) : Encoding :=
  ⟨opcode, f, mode, cycles, false⟩

/-! ### Shared layouts -/

/-- The eight modes of an operation of the accumulator with an operand. -/
def readGroup (f : Family) (base : Byte) : List Encoding :=
  [f.official (base ||| 0x09) .immediate 2, f.official (base ||| 0x05) .zeroPage 3,
    f.official (base ||| 0x15) .zeroPageX 4, f.official (base ||| 0x0D) .absolute 4,
    f.official (base ||| 0x1D) .absoluteX 4, f.official (base ||| 0x19) .absoluteY 4,
    f.official (base ||| 0x01) .indirectX 6, f.official (base ||| 0x11) .indirectY 5]

/-- The five modes of a shift or rotation. -/
def shiftGroup (f : Family) (base : Byte) : List Encoding :=
  [f.official (base ||| 0x0A) .accumulator 2, f.official (base ||| 0x06) .zeroPage 5,
    f.official (base ||| 0x16) .zeroPageX 6, f.official (base ||| 0x0E) .absolute 6,
    f.official (base ||| 0x1E) .absoluteX 7]

/-- The seven modes of an undocumented change of memory followed by an operation of
the accumulator. -/
def comboGroup (f : Family) (base : Byte) : List Encoding :=
  [f.unofficial (base ||| 0x07) .zeroPage 5, f.unofficial (base ||| 0x17) .zeroPageX 6,
    f.unofficial (base ||| 0x0F) .absolute 6, f.unofficial (base ||| 0x1F) .absoluteX 7,
    f.unofficial (base ||| 0x1B) .absoluteY 7, f.unofficial (base ||| 0x03) .indirectX 8,
    f.unofficial (base ||| 0x13) .indirectY 8]

/-- The three modes of a comparison with an index register. -/
def compareGroup (f : Family) (base : Byte) : List Encoding :=
  [f.official base .immediate 2, f.official (base ||| 0x04) .zeroPage 3,
    f.official (base ||| 0x0C) .absolute 4]

/-- The four modes of counting a memory byte up or down. -/
def countGroup (f : Family) (base : Byte) : List Encoding :=
  [f.official (base ||| 0x06) .zeroPage 5, f.official (base ||| 0x16) .zeroPageX 6,
    f.official (base ||| 0x0E) .absolute 6, f.official (base ||| 0x1E) .absoluteX 7]

/-! ### The matrix -/

/-- The opcodes a family declares. -/
def encodings (f : Family) : List Encoding :=
  match f with
  | adc => f.readGroup 0x60
  | sbc => f.readGroup 0xE0 ++ [f.unofficial 0xEB .immediate 2]
  | and => f.readGroup 0x20
  | ora => f.readGroup 0x00
  | eor => f.readGroup 0x40
  | cmp => f.readGroup 0xC0
  | cpx => f.compareGroup 0xE0
  | cpy => f.compareGroup 0xC0
  | bit => [f.official 0x24 .zeroPage 3, f.official 0x2C .absolute 4]
  | bcc => [f.official 0x90 .relative 2]
  | bcs => [f.official 0xB0 .relative 2]
  | beq => [f.official 0xF0 .relative 2]
  | bne => [f.official 0xD0 .relative 2]
  | bmi => [f.official 0x30 .relative 2]
  | bpl => [f.official 0x10 .relative 2]
  | bvc => [f.official 0x50 .relative 2]
  | bvs => [f.official 0x70 .relative 2]
  | asl => f.shiftGroup 0x00
  | lsr => f.shiftGroup 0x40
  | rol => f.shiftGroup 0x20
  | ror => f.shiftGroup 0x60
  | lda => f.readGroup 0xA0
  | ldx => [f.official 0xA2 .immediate 2, f.official 0xA6 .zeroPage 3,
      f.official 0xB6 .zeroPageY 4, f.official 0xAE .absolute 4, f.official 0xBE .absoluteY 4]
  | ldy => [f.official 0xA0 .immediate 2, f.official 0xA4 .zeroPage 3,
      f.official 0xB4 .zeroPageX 4, f.official 0xAC .absolute 4, f.official 0xBC .absoluteX 4]
  | sta => [f.official 0x85 .zeroPage 3, f.official 0x95 .zeroPageX 4, f.official 0x8D .absolute 4,
      f.official 0x9D .absoluteX 5, f.official 0x99 .absoluteY 5, f.official 0x81 .indirectX 6,
      f.official 0x91 .indirectY 6]
  | stx => [f.official 0x86 .zeroPage 3, f.official 0x96 .zeroPageY 4, f.official 0x8E .absolute 4]
  | sty => [f.official 0x84 .zeroPage 3, f.official 0x94 .zeroPageX 4, f.official 0x8C .absolute 4]
  | inc => f.countGroup 0xE0
  | dec => f.countGroup 0xC0
  | inx => [f.official 0xE8 .implicit 2]
  | iny => [f.official 0xC8 .implicit 2]
  | dex => [f.official 0xCA .implicit 2]
  | dey => [f.official 0x88 .implicit 2]
  | brk => [f.official 0x00 .implicit 7]
  | jmp => [f.official 0x4C .absolute 3, f.official 0x6C .indirect 5]
  | jsr => [f.official 0x20 .absolute 6]
  | rts => [f.official 0x60 .implicit 6]
  | rti => [f.official 0x40 .implicit 6]
  | nop => f.official 0xEA .implicit 2 ::
      ([0x1A, 0x3A, 0x5A, 0x7A, 0xDA, 0xFA].map (f.unofficial · .implicit 2) ++
        [0x80, 0x82, 0x89, 0xC2, 0xE2].map (f.unofficial · .immediate 2) ++
        [0x04, 0x44, 0x64].map (f.unofficial · .zeroPage 3) ++
        [0x14, 0x34, 0x54, 0x74, 0xD4, 0xF4].map (f.unofficial · .zeroPageX 4) ++
        [0x0C].map (f.unofficial · .absolute 4) ++
        [0x1C, 0x3C, 0x5C, 0x7C, 0xDC, 0xFC].map (f.unofficial · .absoluteX 4))
  | pha => [f.official 0x48 .implicit 3]
  | php => [f.official 0x08 .implicit 3]
  | pla => [f.official 0x68 .implicit 4]
  | plp => [f.official 0x28 .implicit 4]
  | clc => [f.official 0x18 .implicit 2]
  | sec => [f.official 0x38 .implicit 2]
  | cli => [f.official 0x58 .implicit 2]
  | sei => [f.official 0x78 .implicit 2]
  | cld => [f.official 0xD8 .implicit 2]
  | sed => [f.official 0xF8 .implicit 2]
  | clv => [f.official 0xB8 .implicit 2]
  | tax => [f.official 0xAA .implicit 2]
  | tay => [f.official 0xA8 .implicit 2]
  | txa => [f.official 0x8A .implicit 2]
  | tya => [f.official 0x98 .implicit 2]
  | tsx => [f.official 0xBA .implicit 2]
  | txs => [f.official 0x9A .implicit 2]
  | slo => f.comboGroup 0x00
  | rla => f.comboGroup 0x20
  | sre => f.comboGroup 0x40
  | rra => f.comboGroup 0x60
  | dcp => f.comboGroup 0xC0
  | isc => f.comboGroup 0xE0
  | sax => [f.unofficial 0x87 .zeroPage 3, f.unofficial 0x97 .zeroPageY 4,
      f.unofficial 0x8F .absolute 4, f.unofficial 0x83 .indirectX 6]
  | lax => [f.unofficial 0xA7 .zeroPage 3, f.unofficial 0xB7 .zeroPageY 4,
      f.unofficial 0xAF .absolute 4, f.unofficial 0xBF .absoluteY 4, f.unofficial 0xA3 .indirectX 6,
      f.unofficial 0xB3 .indirectY 5]
  | anc => [f.unofficial 0x0B .immediate 2, f.unofficial 0x2B .immediate 2]
  | alr => [f.unofficial 0x4B .immediate 2]
  | arr => [f.unofficial 0x6B .immediate 2]
  | ane => [f.unofficial 0x8B .immediate 2]
  | lxa => [f.unofficial 0xAB .immediate 2]
  | sbx => [f.unofficial 0xCB .immediate 2]
  | las => [f.unofficial 0xBB .absoluteY 4]
  | sha => [f.unofficial 0x9F .absoluteY 5, f.unofficial 0x93 .indirectY 6]
  | shx => [f.unofficial 0x9E .absoluteY 5]
  | shy => [f.unofficial 0x9C .absoluteX 5]
  | tas => [f.unofficial 0x9B .absoluteY 5]

/-- Whether a family declares an opcode. -/
def declares (f : Family) (opcode : Byte) : Bool := f.encodings.any (·.opcode == opcode)

/-- The family's own declaration of an opcode. -/
def encoding? (f : Family) (opcode : Byte) : Option Encoding :=
  f.encodings.find? (·.opcode == opcode)

/-- The family's own declaration of an opcode, which is unknown to it otherwise. -/
def encoding (f : Family) (opcode : Byte) : Except Fault Encoding :=
  match f.encoding? opcode with
  | some e => .ok e
  | none => .error (.unknownOpcode opcode)

theorem family_of_mem_encodings {f : Family} {e : Encoding} (h : e ∈ f.encodings) :
    e.family = f := by
  have : ∀ f : Family, ∀ e ∈ f.encodings, e.family = f := by
    intro f
    cases f <;> decide
  exact this f e h

theorem isSome_encoding? (f : Family) (opcode : Byte) :
    (f.encoding? opcode).isSome = f.declares opcode := by
  simp [encoding?, declares, List.isSome_find?]

theorem opcode_of_encoding? {f : Family} {opcode : Byte} {e : Encoding}
    (h : f.encoding? opcode = some e) : e.opcode = opcode := by
  simpa using List.find?_some h

theorem family_of_encoding? {f : Family} {opcode : Byte} {e : Encoding}
    (h : f.encoding? opcode = some e) : e.family = f :=
  family_of_mem_encodings (List.mem_of_find?_eq_some h)

end Family

namespace Encoding

/-- Every declared opcode, family by family. -/
def all : List Encoding := Family.all.flatMap Family.encodings

/-- The declaration of an opcode, if any family declares it. -/
def ofOpcode? (opcode : Byte) : Option Encoding := Family.all.findSome? (·.encoding? opcode)

/-- How many of the 256 bytes are declared. -/
def declaredCount : Nat :=
  (List.range 256).countP fun n => (ofOpcode? (BitVec.ofNat 8 n)).isSome

/-- A one-line account of the matrix. -/
def describeMatrix : String :=
  "Decoder \x7b declared_opcodes: " ++ toString declaredCount ++ " \x7d"

/-- A declaration is found under its opcode as its family's own. -/
theorem encoding?_of_ofOpcode? {opcode : Byte} {e : Encoding} (h : ofOpcode? opcode = some e) :
    e.family.encoding? opcode = some e := by
  obtain ⟨f, _, hf⟩ := List.exists_of_findSome?_eq_some h
  rwa [Family.family_of_encoding? hf]

theorem opcode_of_ofOpcode? {opcode : Byte} {e : Encoding} (h : ofOpcode? opcode = some e) :
    e.opcode = opcode :=
  Family.opcode_of_encoding? (encoding?_of_ofOpcode? h)

/-- A byte has a declaration if some family declares it. -/
theorem isSome_ofOpcode?_iff {opcode : Byte} :
    (ofOpcode? opcode).isSome ↔ ∃ f : Family, f.declares opcode := by
  simp only [ofOpcode?, List.isSome_findSome?, List.any_eq_true, Family.isSome_encoding?]
  exact ⟨fun ⟨f, _, h⟩ => ⟨f, h⟩, fun ⟨f, h⟩ => ⟨f, f.mem_all, h⟩⟩

theorem isSome_ofOpcode? (opcode : Byte) :
    (ofOpcode? opcode).isSome = all.any (·.opcode == opcode) := by
  simp only [ofOpcode?, all, List.isSome_findSome?, List.any_flatMap, Family.isSome_encoding?]
  rfl

theorem mem_all_of_ofOpcode? {opcode : Byte} {e : Encoding} (h : ofOpcode? opcode = some e) :
    e ∈ all :=
  List.mem_flatMap.mpr
    ⟨e.family, e.family.mem_all, List.mem_of_find?_eq_some (encoding?_of_ofOpcode? h)⟩

/-! ### Counting opcodes

Searching the declarations once for each of them is slow, marking each of them as a bit of one
number is not. -/

/-- The opcodes of declarations, each as a bit. -/
def marks : List Encoding → Nat
  | [] => 0
  | e :: declared => marks declared ||| 1 <<< e.opcode.toNat

theorem testBit_marks (opcode : Byte) :
    ∀ declared, (marks declared).testBit opcode.toNat = declared.any (·.opcode == opcode)
  | [] => by rw [marks, Nat.zero_testBit, List.any_nil]
  | e :: declared => by
    have hbit : (1 <<< e.opcode.toNat).testBit opcode.toNat = (e.opcode == opcode) := by
      rw [Nat.one_shiftLeft, Nat.testBit_two_pow, Bool.eq_iff_iff, decide_eq_true_iff, beq_iff_eq,
        BitVec.toNat_inj]
    rw [marks, Nat.testBit_or, testBit_marks opcode declared, hbit, List.any_cons, Bool.or_comm]

/-- Whether no opcode comes back further on among declarations. -/
def distinct : List Encoding → Bool
  | [] => true
  | e :: declared => !(marks declared).testBit e.opcode.toNat && distinct declared

theorem eq_of_distinct {declared : List Encoding} (h : distinct declared = true)
    {e₁ e₂ : Encoding} (h₁ : e₁ ∈ declared) (h₂ : e₂ ∈ declared) (ho : e₁.opcode = e₂.opcode) :
    e₁ = e₂ := by
  induction declared with
  | nil => cases h₁
  | cons e declared ih =>
    rw [distinct, Bool.and_eq_true, Bool.not_eq_true', testBit_marks, List.any_eq_false] at h
    obtain ⟨hlater, hrest⟩ := h
    rcases List.mem_cons.mp h₁ with rfl | hr₁ <;> rcases List.mem_cons.mp h₂ with rfl | hr₂
    · rfl
    · exact absurd (beq_iff_eq.mpr ho.symm) (hlater e₂ hr₂)
    · exact absurd (beq_iff_eq.mpr ho) (hlater e₁ hr₁)
    · exact ih hrest hr₁ hr₂

/-- No byte is declared twice: every declaration is the one found under its opcode. -/
theorem ofOpcode?_opcode {e : Encoding} (h : e ∈ all) : ofOpcode? e.opcode = some e := by
  have hdistinct : distinct all = true := by decide +kernel
  have hsome : (ofOpcode? e.opcode).isSome := by
    rw [isSome_ofOpcode?]
    exact List.any_eq_true.mpr ⟨e, h, beq_self_eq_true e.opcode⟩
  obtain ⟨found, hfound⟩ := Option.isSome_iff_exists.mp hsome
  rw [hfound, eq_of_distinct hdistinct (mem_all_of_ofOpcode? hfound) h (opcode_of_ofOpcode? hfound)]

/-- All but twelve of the 256 bytes are declared. -/
theorem declaredCount_eq : declaredCount = 244 := by
  have hmarks : (List.range 256).countP (marks all).testBit = 244 := by decide +kernel
  rw [declaredCount, ← hmarks]
  apply List.countP_congr
  intro n hn
  have hbyte : (BitVec.ofNat 8 n).toNat = n :=
    Nat.mod_eq_of_lt (List.mem_range.mp hn)
  rw [isSome_ofOpcode?, ← testBit_marks, hbyte]

end Encoding

end Nmos6502
