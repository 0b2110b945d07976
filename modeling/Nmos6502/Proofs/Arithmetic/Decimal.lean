import Nmos6502.Proofs.Arithmetic.Checked

/-! Packed decimal numbers of many bytes.

With the decimal flag a chain of sums or differences is exact to the base one hundred, and what it
leaves is packed digits again. A single step takes any bytes, nibbles above nine included: it leaves
packed digits, is carried out in bytes and words without overflow, and but for the carry its flags
are those of the binary step (`Alu.Operation.flags_run`). -/
namespace Nmos6502.Alu.Operation

open Numeral (packed)

/-- The flags other than the carry do not see the packed digits. -/
theorem flags_run (o : Operation) {flags : Flags} (hd : flags.decimal = true) (a b : Byte) :
    (o.run flags a b).flags = {(o.run {flags with decimal := false} a b).flags with
      carry := (o.run flags a b).flags.carry
      decimal := true} := by
  have hbinary : ({flags with decimal := false} : Flags).decimal = false := rfl
  have hflags (b : Byte) : (addBinary flags a b).flags =
      {(addBinary {flags with decimal := false} a b).flags with decimal := true} := by
    rw [← hd]
    rfl
  cases o with
  | sum =>
    rw [run_sum_packed hd, run_sum hbinary, hflags]
  | difference =>
    rw [run_difference_packed hd, run_difference hbinary, hflags]

/-- What a chain of packed sums leaves: the packed digits of the sum of the numbers. -/
structure PackedSum (flags : Flags) (xs ys : List Byte) : Prop where
  valid : packed.Valid (sum.chain flags xs ys).1
  length : (sum.chain flags xs ys).1.length = xs.length
  value : packed.value (sum.chain flags xs ys).1 +
      100 ^ xs.length * (sum.chain flags xs ys).2.carry.toNat =
    packed.value xs + packed.value ys + flags.carry.toNat

/-- What a chain of packed differences leaves: the packed digits of the difference. -/
structure PackedDifference (flags : Flags) (xs ys : List Byte) : Prop where
  valid : packed.Valid (difference.chain flags xs ys).1
  length : (difference.chain flags xs ys).1.length = xs.length
  value : (packed.value (difference.chain flags xs ys).1 : Int) -
      100 ^ xs.length * (!(difference.chain flags xs ys).2.carry).toNat =
    packed.value xs - packed.value ys - (!flags.carry).toNat

/-- What a packed step does with any two bytes. -/
structure PackedStep (o : Operation) (flags : Flags) (a b : Byte) : Prop where
  checked : Checked.run o flags a b = some (o.run flags a b)
  digits : (o.run flags a b).value.IsDecimal
  zero : (o.run flags a b).flags.zero = (o.run {flags with decimal := false} a b).flags.zero
  negative : (o.run flags a b).flags.negative =
    (o.run {flags with decimal := false} a b).flags.negative
  overflow : (o.run flags a b).flags.overflow =
    (o.run {flags with decimal := false} a b).flags.overflow

/-- **Packed decimal arithmetic is exact at any length.** Sums and differences of packed digits come
out of the steps on their bytes as packed digits, and a difference from the opposite carry takes a
sum back. A step is defined on all bytes: no number in it leaves its type, what it leaves is packed
digits, and zero, negative and overflow are those of the binary step. -/
theorem packed_exact {flags : Flags} (hd : flags.decimal = true) :
    (∀ xs ys, xs.length = ys.length → packed.Valid xs → packed.Valid ys →
      PackedSum flags xs ys ∧ PackedDifference flags xs ys ∧
      ∀ back : Flags, back.decimal = true → back.carry = !flags.carry →
        (difference.chain back (sum.chain flags xs ys).1 ys).1 = xs) ∧
    ∀ o a b, PackedStep o flags a b := by
  constructor
  · intro xs ys hlen hx hy
    refine ⟨⟨sum.valid_chain hd xs ys, sum.length_chain flags hlen, value_sum hd hlen hx hy⟩,
      ⟨difference.valid_chain hd xs ys, difference.length_chain flags hlen, ?_⟩, ?_⟩
    · exact value_difference hd hlen hx hy
    · intro back hback hc
      exact (difference_chain_sum hd hback hc hlen hx hy).1
  · intro o a b
    have hflags := o.flags_run hd a b
    exact ⟨Checked.run_eq flags a b o, o.isDecimal_run hd a b, by rw [hflags], by rw [hflags],
      by rw [hflags]⟩

/-- Nothing less all nines and the borrow is nothing again, with a borrow left; and two bytes that
are no digits add up to some. -/
theorem nothing_less_nines :
    let start := {Flags.clear with decimal := true}
    PackedDifference start [0x00, 0x00] [0x99, 0x99] ∧
    packed.value [0x99, 0x99] = 9999 ∧
    (difference.chain start [0x00, 0x00] [0x99, 0x99]).1 = [0x00, 0x00] ∧
    (difference.chain start [0x00, 0x00] [0x99, 0x99]).2.carry = false ∧
    PackedStep sum start 0xFF 0x1F ∧ (sum.run start 0xFF 0x1F).value = 0x90 := by
  intro start
  obtain ⟨hchain, hstep⟩ := packed_exact (show start.decimal = true from rfl)
  obtain ⟨-, hdifference, -⟩ := hchain [0x00, 0x00] [0x99, 0x99] rfl (by decide) (by decide)
  exact ⟨hdifference, rfl, by decide, by decide, hstep sum 0xFF 0x1F, by decide⟩

end Nmos6502.Alu.Operation
