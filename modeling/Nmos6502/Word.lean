/-! Bytes and words, and the parts the machine takes them apart into.

Registers and memory cells are bytes, addresses are words, and both wrap. A word is
two bytes, `Word.ofBytes low high`, and its high byte is the page it lies on
(`ofBytes_low_high`, `low_ofBytes`, `high_ofBytes`). A byte is rotated through a
carry: the carry comes in at one end and the bit pushed out at the other end is the
next carry (`rotateRight_rotateLeft`, `rotateLeft_rotateRight`). -/
namespace Nmos6502

abbrev Byte := BitVec 8

abbrev Word := BitVec 16

namespace Byte

def lowNibble (b : Byte) : Byte := b &&& 0x0F

def highNibble (b : Byte) : Byte := b >>> 4

/-- Bit 7, the sign of a two's complement byte. -/
def isNegative (b : Byte) : Bool := b.msb

def isBitSet (b : Byte) (bit : Nat) : Bool := b.getLsbD bit

def withBit (b : Byte) (bit : Nat) (on : Bool) : Byte :=
  if on then b ||| (1 : Byte) <<< bit else b &&& ~~~((1 : Byte) <<< bit)

/-- The word with the same value. -/
def toWord (b : Byte) : Word := b.setWidth 16

/-- The word with the same value as a two's complement number. -/
def toSignedWord (b : Byte) : Word := b.signExtend 16

/-! ### Rotation through a carry -/

/-- The carry becomes bit 0, and bit 7 the carry. -/
def rotateLeftThrough (b : Byte) (carry : Bool) : Byte × Bool :=
  (b.extractLsb' 0 7 ++ BitVec.ofBool carry, b.msb)

/-- The carry becomes bit 7, and bit 0 the carry. -/
def rotateRightThrough (b : Byte) (carry : Bool) : Byte × Bool :=
  (BitVec.ofBool carry ++ b.extractLsb' 1 7, b.getLsbD 0)

theorem rotateRight_rotateLeft : ∀ (b : Byte) (carry : Bool),
    rotateRightThrough (b.rotateLeftThrough carry).1 (b.rotateLeftThrough carry).2 =
      (b, carry) := by
  decide

theorem rotateLeft_rotateRight : ∀ (b : Byte) (carry : Bool),
    rotateLeftThrough (b.rotateRightThrough carry).1 (b.rotateRightThrough carry).2 =
      (b, carry) := by
  decide

end Byte

namespace Word

def low (w : Word) : Byte := w.extractLsb' 0 8

def high (w : Word) : Byte := w.extractLsb' 8 8

def ofBytes (low high : Byte) : Word := high ++ low

@[simp] theorem ofBytes_low_high (w : Word) : ofBytes w.low w.high = w :=
  BitVec.extractLsb'_append_extractLsb'

@[simp] theorem low_ofBytes (l h : Byte) : (ofBytes l h).low = l :=
  BitVec.extractLsb'_append_eq_right

@[simp] theorem high_ofBytes (l h : Byte) : (ofBytes l h).high = h :=
  BitVec.extractLsb'_append_eq_left

@[simp] theorem low_toWord : ∀ b : Byte, b.toWord.low = b := by
  decide

theorem toNat_toWord (b : Byte) : b.toWord.toNat = b.toNat :=
  BitVec.toNat_setWidth_of_le (by decide)

theorem toNat_low (w : Word) : w.low.toNat = w.toNat % 256 := by
  rw [low, BitVec.extractLsb'_toNat, Nat.shiftRight_zero]

theorem toNat_high (w : Word) : w.high.toNat = w.toNat / 256 := by
  have := w.isLt
  rw [high, BitVec.extractLsb'_toNat, Nat.shiftRight_eq_div_pow]
  exact Nat.mod_eq_of_lt (by omega)

theorem toNat_ofBytes (l h : Byte) : (ofBytes l h).toNat = 256 * h.toNat + l.toNat := by
  rw [ofBytes, BitVec.toNat_append, Nat.shiftLeft_eq, Nat.mul_comm,
    ← Nat.two_pow_add_eq_or_of_lt l.isLt]

/-- Whether two addresses lie on different pages. -/
def crossesPage (base target : Word) : Bool := base.high != target.high

/-- An index leads to another page when adding it carries out of the low byte. -/
theorem crossesPage_add (base : Word) (index : Byte) :
    base.crossesPage (base + index.toWord) = decide (256 ≤ base.toNat % 256 + index.toNat) := by
  have hb := base.isLt
  have hi := index.isLt
  rw [Bool.eq_iff_iff, crossesPage, bne_iff_ne, ne_eq, ← BitVec.toNat_inj, toNat_high, toNat_high,
    BitVec.toNat_add, toNat_toWord, decide_eq_true_iff]
  omega

end Word

end Nmos6502
