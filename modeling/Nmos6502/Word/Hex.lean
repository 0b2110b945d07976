import Nmos6502.Word

/-! Hexadecimal text: two capital digits for a byte, four for a word. -/
namespace Nmos6502

/-- The capital hexadecimal digit of a nibble. -/
def hexDigit (n : BitVec 4) : Char :=
  if n.toNat < 10 then Char.ofNat (48 + n.toNat) else Char.ofNat (55 + n.toNat)

def Byte.hexDigits (b : Byte) : List Char :=
  [hexDigit (b.extractLsb' 4 4), hexDigit (b.extractLsb' 0 4)]

def Byte.hex (b : Byte) : String := String.ofList b.hexDigits

def Word.hex (w : Word) : String := String.ofList (w.high.hexDigits ++ w.low.hexDigits)

theorem hexDigit_inj : ∀ {m n : BitVec 4}, hexDigit m = hexDigit n → m = n := by
  decide

theorem Byte.hexDigits_inj {a b : Byte} (h : a.hexDigits = b.hexDigits) : a = b := by
  simp only [hexDigits, List.cons.injEq, and_true] at h
  have halves (c : Byte) : c.extractLsb' 4 4 ++ c.extractLsb' 0 4 = c :=
    BitVec.extractLsb'_append_extractLsb'
  rw [← halves a, ← halves b, hexDigit_inj h.1, hexDigit_inj h.2]

/-- Different bytes have different texts. -/
theorem Byte.hex_inj {a b : Byte} (h : a.hex = b.hex) : a = b :=
  Byte.hexDigits_inj (String.ofList_injective h)

/-- Different words have different texts. -/
theorem Word.hex_inj {v w : Word} (h : v.hex = w.hex) : v = w := by
  have hd := List.append_inj (String.ofList_injective h) rfl
  rw [← ofBytes_low_high v, ← ofBytes_low_high w, Byte.hexDigits_inj hd.1,
    Byte.hexDigits_inj hd.2]

end Nmos6502
