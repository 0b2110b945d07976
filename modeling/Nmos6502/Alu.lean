import Nmos6502.Flags
import Nmos6502.Word.Decimal

/-! Arithmetic and shifts on a byte and the flags.

Every operation takes the flags it starts from and gives the new byte together with
the new flags. Subtraction is addition of the complement, the carry standing for "no
borrow", so its flags are those of that addition. With the decimal flag set, sum and
difference are taken of packed digits and decide the byte and the carry; zero,
negative and overflow stay those of the binary result. -/
namespace Nmos6502.Alu

structure Result where
  value : Byte
  flags : Flags
deriving DecidableEq, Repr

/-! ### Sums and differences -/

/-- The binary sum with the carry: overflow when both operands have a sign that the
sum has not. -/
def addBinary (flags : Flags) (a b : Byte) : Result :=
  let sum := a.toNat + b.toNat + flags.carry.toNat
  let value := BitVec.ofNat 8 sum
  let overflow := Byte.isNegative ((a ^^^ value) &&& (b ^^^ value))
  ⟨value, {flags.withResult value with carry := 0xFF < sum, overflow}⟩

/-- The sum of two bytes and the carry. -/
def add (flags : Flags) (a b : Byte) : Result :=
  let binary := addBinary flags a b
  if flags.decimal then
    let sum := a.decimal + b.decimal + flags.carry.toNat
    ⟨.ofDecimal sum, {binary.flags with carry := 99 < sum}⟩
  else binary

/-- The difference of two bytes less the borrow, which is a clear carry. -/
def subtract (flags : Flags) (a b : Byte) : Result :=
  let binary := addBinary flags a (~~~b)
  if flags.decimal then
    let difference : Int := a.decimal - b.decimal - (!flags.carry).toNat
    ⟨.ofDecimal (difference % 100).toNat, {binary.flags with carry := 0 ≤ difference}⟩
  else binary

/-- The flags of a comparison: carry when the register is not below the byte, zero
and negative of the wrapped difference. -/
def compare (flags : Flags) (register b : Byte) : Flags :=
  {flags.withResult (register - b) with carry := b ≤ register}

/-- The flags of a bit test: zero of the masked byte, negative and overflow from its
top bits unmasked. -/
def bitTest (flags : Flags) (a b : Byte) : Flags :=
  {flags with
    zero := a &&& b == 0
    negative := b.isNegative
    overflow := b.isBitSet 6}

/-! ### Shifts and counting -/

/-- A rotated byte, the bit pushed out in the carry. -/
def ofRotated (flags : Flags) (rotated : Byte × Bool) : Result :=
  ⟨rotated.1, {flags.withResult rotated.1 with carry := rotated.2}⟩

def shiftLeft (flags : Flags) (b : Byte) : Result := ofRotated flags (b.rotateLeftThrough false)

def shiftRight (flags : Flags) (b : Byte) : Result := ofRotated flags (b.rotateRightThrough false)

def rotateLeft (flags : Flags) (b : Byte) : Result :=
  ofRotated flags (b.rotateLeftThrough flags.carry)

def rotateRight (flags : Flags) (b : Byte) : Result :=
  ofRotated flags (b.rotateRightThrough flags.carry)

/-- A right rotation whose carry is bit 6 of the result and whose overflow tells
whether bits 6 and 5 differ. -/
def rotateRightMixed (flags : Flags) (b : Byte) : Result :=
  let value := (b.rotateRightThrough flags.carry).1
  ⟨value, {flags.withResult value with
    carry := value.isBitSet 6
    overflow := value.isBitSet 6 != value.isBitSet 5}⟩

def increment (flags : Flags) (b : Byte) : Result := ⟨b + 1, flags.withResult (b + 1)⟩

def decrement (flags : Flags) (b : Byte) : Result := ⟨b - 1, flags.withResult (b - 1)⟩

end Nmos6502.Alu
