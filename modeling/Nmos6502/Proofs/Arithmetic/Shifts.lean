import Nmos6502.Proofs.Arithmetic.Chain

/-! Numbers of many bytes, shifted by one through the carry.

A shift takes the bytes of a number in turn, and the bit pushed out of one byte is the carry that
the next one takes in: to the left from the lowest byte up, to the right from the highest byte down
(`Byte.Rotation.chain`). Whatever one rotation does to a byte and the carry, the chain does to the
number and the carry (`Byte.Rotation.value_left`, `Byte.Rotation.value_right`): the one doubles, the
other halves, and what does not fit is left in the carry.

In memory the bytes may lie anywhere as long as no two are one (`Family.rotated_pass`). As a number
and its carry have one double and one half, rotating back the other way restores both
(`Cpu.Doubled.halved`, `Cpu.Halved.doubled`). -/
namespace Nmos6502

open Numeral (binary)

theorem Numeral.value_append {n : Numeral} (xs ys : List Byte) :
    n.value (xs ++ ys) = n.value xs + n.base ^ xs.length * n.value ys := by
  rw [value, List.map_append, Nat.ofDigits_append, List.length_map]
  rfl

/-! ### Bytes -/

namespace Byte

theorem toNat_rotateLeftThrough : ∀ (b : Byte) (carry : Bool),
    (b.rotateLeftThrough carry).1.toNat + 256 * (b.rotateLeftThrough carry).2.toNat =
      2 * b.toNat + carry.toNat := by
  decide

theorem toNat_rotateRightThrough : ∀ (b : Byte) (carry : Bool),
    2 * (b.rotateRightThrough carry).1.toNat + (b.rotateRightThrough carry).2.toNat =
      b.toNat + 256 * carry.toNat := by
  decide

/-- The two ways to rotate through a carry. -/
inductive Rotation where
  | left
  | right
deriving DecidableEq, Repr

namespace Rotation

def run : Rotation → Byte → Bool → Byte × Bool
  | left => rotateLeftThrough
  | right => rotateRightThrough

/-- Rotate bytes in turn, each with the bit pushed out of the one before it. -/
def chain (r : Rotation) (carry : Bool) : List Byte → List Byte × Bool
  | [] => ([], carry)
  | b :: bytes =>
    let rotated := r.run b carry
    let rest := r.chain rotated.2 bytes
    (rotated.1 :: rest.1, rest.2)

theorem length_chain (r : Rotation) (carry : Bool) (bytes : List Byte) :
    (r.chain carry bytes).1.length = bytes.length := by
  induction bytes generalizing carry with
  | nil => rfl
  | cons b bytes ih => exact congrArg (· + 1) (ih (r.run b carry).2)

/-- To the left the carry goes from the lowest byte up, and the number doubles. -/
theorem value_left (carry : Bool) (bytes : List Byte) :
    binary.value (left.chain carry bytes).1 +
        256 ^ bytes.length * (left.chain carry bytes).2.toNat =
      2 * binary.value bytes + carry.toNat := by
  induction bytes generalizing carry with
  | nil => simp [chain]
  | cons b bytes ih =>
    let rotated := b.rotateLeftThrough carry
    have hb : rotated.1.toNat + 256 * rotated.2.toNat = 2 * b.toNat + carry.toNat :=
      toNat_rotateLeftThrough b carry
    have hrest := ih rotated.2
    calc rotated.1.toNat + 256 * binary.value (left.chain rotated.2 bytes).1 +
          256 ^ (bytes.length + 1) * (left.chain rotated.2 bytes).2.toNat
        = rotated.1.toNat + 256 * (binary.value (left.chain rotated.2 bytes).1 +
            256 ^ bytes.length * (left.chain rotated.2 bytes).2.toNat) := by ring
      _ = rotated.1.toNat + 256 * rotated.2.toNat + 2 * (256 * binary.value bytes) := by
          rw [hrest]
          ring
      _ = 2 * (b.toNat + 256 * binary.value bytes) + carry.toNat := by
          rw [hb]
          ring

/-- To the right it goes from the highest byte down, and what counts is the number below it. -/
theorem value_right (carry : Bool) (bytes : List Byte) :
    2 * binary.value (right.chain carry bytes).1.reverse + (right.chain carry bytes).2.toNat =
      binary.value bytes.reverse + 256 ^ bytes.length * carry.toNat := by
  induction bytes generalizing carry with
  | nil => simp [chain]
  | cons b bytes ih =>
    let rotated := b.rotateRightThrough carry
    have hb : 2 * rotated.1.toNat + rotated.2.toNat = b.toNat + 256 * carry.toNat :=
      toNat_rotateRightThrough b carry
    have hrest := ih rotated.2
    have hvalue (c : Byte) (cs : List Byte) : binary.value (c :: cs).reverse =
        binary.value cs.reverse + 256 ^ cs.length * c.toNat := by
      rw [List.reverse_cons, Numeral.value_append, List.length_reverse]
      rfl
    show 2 * binary.value (rotated.1 :: (right.chain rotated.2 bytes).1).reverse +
      (right.chain rotated.2 bytes).2.toNat = _
    rw [hvalue, hvalue, length_chain]
    calc 2 * (binary.value (right.chain rotated.2 bytes).1.reverse +
            256 ^ bytes.length * rotated.1.toNat) + (right.chain rotated.2 bytes).2.toNat
        = 2 * binary.value (right.chain rotated.2 bytes).1.reverse +
            (right.chain rotated.2 bytes).2.toNat +
            256 ^ bytes.length * (2 * rotated.1.toNat) := by ring
      _ = binary.value bytes.reverse +
            256 ^ bytes.length * (2 * rotated.1.toNat + rotated.2.toNat) := by
          rw [hrest]
          ring
      _ = binary.value bytes.reverse + 256 ^ bytes.length * b.toNat +
            256 ^ (bytes.length + 1) * carry.toNat := by
          rw [hb]
          ring

end Rotation

end Byte

/-! ### Numbers in memory -/

namespace Memory

/-- The number that the bytes at some addresses make, the lowest byte first. -/
def number (m : Memory) (addresses : List Word) : Nat := binary.value (addresses.map m.read)

theorem number_lt (m : Memory) (addresses : List Word) :
    m.number addresses < 256 ^ addresses.length := by
  have hlt : m.number addresses < 256 ^ (addresses.map m.read).length :=
    Numeral.value_lt fun _ _ => trivial
  rwa [List.length_map] at hlt

/-- Memories that are alike elsewhere and hold one number there are the same. -/
theorem eq_of_number {m n : Memory} {addresses : List Word}
    (h : ∀ a ∉ addresses, m.read a = n.read a) (hn : m.number addresses = n.number addresses) :
    m = n := by
  have hbytes : addresses.map m.read = addresses.map n.read :=
    Numeral.value_inj (fun _ _ => trivial) (fun _ _ => trivial) (by simp) hn
  apply ext_read
  intro a
  by_cases ha : a ∈ addresses
  · exact List.map_inj_left.mp hbytes a ha
  · exact h a ha

end Memory

namespace Cpu
variable {s t u : Cpu} {carry : Bool} {xs ys addresses : List Word}

/-- All but the bytes at some addresses, carry, zero and negative is as it was, though another
opcode may be on record. -/
structure KeptBeside (s : Cpu) (addresses : List Word) (t : Cpu) : Prop where
  memory : ∀ a ∉ addresses, t.memory.read a = s.memory.read a
  registers : t.registers = s.registers
  flags : t.flags = {s.flags with
    carry := t.flags.carry
    zero := t.flags.zero
    negative := t.flags.negative}
  ledger : t.ledger = s.ledger

theorem KeptBeside.mono (h : s.KeptBeside xs t) (hs : xs ⊆ ys) : s.KeptBeside ys t :=
  {h with memory := fun a ha => h.memory a fun hx => ha (hs hx)}

theorem KeptBeside.trans (h : s.KeptBeside xs t) (h' : t.KeptBeside xs u) : s.KeptBeside xs u where
  memory a ha := (h'.memory a ha).trans (h.memory a ha)
  registers := h'.registers.trans h.registers
  flags := h'.flags.trans (congrArg (fun f : Flags => {f with
    carry := u.flags.carry
    zero := u.flags.zero
    negative := u.flags.negative}) h.flags)
  ledger := h'.ledger.trans h.ledger

/-- The bytes at some addresses are rotated in turn, and the carry is what was pushed out last. -/
structure Rotated (s : Cpu) (r : Byte.Rotation) (carry : Bool) (addresses : List Word) (t : Cpu) :
    Prop where
  bytes : addresses.map t.memory.read = (r.chain carry (addresses.map s.memory.read)).1
  carry : t.flags.carry = (r.chain carry (addresses.map s.memory.read)).2
  kept : s.KeptBeside addresses t

/-- A number is doubled with the carry put in, and the bit too many is the new carry. -/
structure Doubled (s : Cpu) (carry : Bool) (addresses : List Word) (t : Cpu) : Prop where
  exact : t.memory.number addresses + 256 ^ addresses.length * t.flags.carry.toNat =
    2 * s.memory.number addresses + carry.toNat
  kept : s.KeptBeside addresses t

/-- A number with the carry above it is halved, and what is left over is the new carry. -/
structure Halved (s : Cpu) (carry : Bool) (addresses : List Word) (t : Cpu) : Prop where
  exact : 2 * t.memory.number addresses + t.flags.carry.toNat =
    s.memory.number addresses + 256 ^ addresses.length * carry.toNat
  kept : s.KeptBeside addresses t

/-- The bytes and the carry are what they were. -/
structure Restored (s : Cpu) (addresses : List Word) (t : Cpu) : Prop where
  memory : t.memory = s.memory
  carry : t.flags.carry = s.flags.carry
  kept : s.KeptBeside addresses t

theorem Rotated.doubled (h : s.Rotated .left carry addresses t) :
    s.Doubled carry addresses t where
  exact := by
    have hvalue := Byte.Rotation.value_left carry (addresses.map s.memory.read)
    rwa [← h.bytes, ← h.carry, List.length_map] at hvalue
  kept := h.kept

theorem Rotated.halved (h : s.Rotated .right carry addresses.reverse t) :
    s.Halved carry addresses t where
  exact := by
    have hvalue := Byte.Rotation.value_right carry (addresses.reverse.map s.memory.read)
    rwa [← h.bytes, ← h.carry, ← List.map_reverse, ← List.map_reverse, List.reverse_reverse,
      List.length_map, List.length_reverse] at hvalue
  kept := h.kept.mono fun _ => List.mem_reverse.mp

/-- Two numbers and carries with one double are the same. -/
theorem Doubled.halved (h : s.Doubled s.flags.carry addresses t)
    (h' : t.Halved t.flags.carry addresses u) : s.Restored addresses u := by
  have hboth := h'.exact.trans h.exact
  have hkept := h.kept.trans h'.kept
  -- the carry is the last bit of either double
  have hcarry : u.flags.carry = s.flags.carry := by
    cases hc : s.flags.carry <;> cases hc' : u.flags.carry <;>
      simp only [hc, hc', Bool.toNat_false, Bool.toNat_true] at hboth
    all_goals first | rfl | omega
  rw [hcarry] at hboth
  have hnumber : u.memory.number addresses = s.memory.number addresses := by omega
  exact ⟨Memory.eq_of_number hkept.memory hnumber, hcarry, hkept⟩

theorem Halved.doubled (h : s.Halved s.flags.carry addresses t)
    (h' : t.Doubled t.flags.carry addresses u) : s.Restored addresses u := by
  have hboth := h'.exact.trans h.exact
  have hkept := h.kept.trans h'.kept
  have hs := s.memory.number_lt addresses
  have hu := u.memory.number_lt addresses
  -- neither number reaches what a carry counts
  have hcarry : u.flags.carry = s.flags.carry := by
    cases hc : s.flags.carry <;> cases hc' : u.flags.carry <;>
      simp only [hc, hc', Bool.toNat_false, Bool.toNat_true] at hboth
    all_goals first | rfl | omega
  rw [hcarry] at hboth
  exact ⟨Memory.eq_of_number hkept.memory (Nat.add_right_cancel hboth), hcarry, hkept⟩

end Cpu

/-! ### Passes -/

namespace Family

/-- Put the opcode with an absolute address on record and carry it out on that address. -/
def atAddress (f : Family) (address : Word) : Attempt Unit := fun s =>
  match f.encodings.find? (·.mode == .absolute) with
  | none => .error (.invalidMode s.opcode .absolute) s
  | some e => f.execute address (s.withOpcode e.opcode)

/-- Carry out a family on the first of some addresses, and another on the rest in turn. -/
def pass (f g : Family) : List Word → Attempt Unit
  | [] => pure ()
  | a :: rest => do
    f.atAddress a
    pass g g rest

/-- How a family rotates a byte, and whether it takes the carry in. -/
def rotation? : Family → Option (Byte.Rotation × Bool)
  | asl => some (.left, false)
  | rol => some (.left, true)
  | lsr => some (.right, false)
  | ror => some (.right, true)
  | _ => none

variable {f g : Family} {r : Byte.Rotation} {takes : Bool} {addresses : List Word}

theorem rotated_atAddress (h : f.rotation? = some (r, takes)) (a : Word) (s : Cpu) :
    ∃ t, f.atAddress a s = .ok () t ∧ s.Rotated r (takes && s.flags.carry) [a] t := by
  let rotated := r.run (s.memory.read a) (takes && s.flags.carry)
  obtain ⟨t, ht, hmemory, hflags, hregisters, hledger⟩ : ∃ t, f.atAddress a s = .ok () t ∧
      t.memory = s.memory.write a rotated.1 ∧ t.flags = (Alu.ofRotated s.flags rotated).flags ∧
      t.registers = s.registers ∧ t.ledger = s.ledger := by
    cases f <;> cases h <;> exact ⟨_, rfl, rfl, rfl, rfl, rfl⟩
  refine ⟨t, ht, ?_, ?_, fun b hb => ?_, hregisters, ?_, hledger⟩
  · rw [hmemory]
    exact congrArg (fun b => [b]) (Memory.read_write_self _ _ _)
  · rw [hflags]
    rfl
  · rw [hmemory, Memory.read_write_of_ne _ _ (List.ne_of_not_mem_cons hb).symm]
  · rw [hflags]
    rfl

/-- A pass rotates the bytes in turn, from the carry it finds or from none. -/
theorem rotated_pass (hf : f.rotation? = some (r, takes)) (hg : g.rotation? = some (r, true))
    (hd : addresses.Nodup) (hne : addresses ≠ [] ∨ takes = true) (s : Cpu) :
    ∃ t, f.pass g addresses s = .ok () t ∧
      s.Rotated r (takes && s.flags.carry) addresses t := by
  induction addresses generalizing f takes s with
  | nil =>
    obtain rfl : takes = true := hne.resolve_left (· rfl)
    exact ⟨s, rfl, rfl, rfl, fun _ _ => rfl, rfl, rfl, rfl⟩
  | cons a rest ih =>
    obtain ⟨ha, hrest⟩ := List.nodup_cons.mp hd
    obtain ⟨s₁, hs, hbyte, hcarry₁, hkept₁⟩ := rotated_atAddress hf a s
    obtain ⟨t, ht, hbytes, hcarry, hkept⟩ := ih hg hrest (.inr rfl) s₁
    have hpass : f.pass g (a :: rest) s = g.pass g rest s₁ := by
      show EStateM.bind (f.atAddress a) (fun _ => g.pass g rest) s = _
      simp only [EStateM.bind, hs]
    -- the first byte is none of the others, so neither reads what the other writes
    have hfirst : t.memory.read a = (r.run (s.memory.read a) (takes && s.flags.carry)).1 :=
      (hkept.memory a ha).trans (List.singleton_inj.mp hbyte)
    have hothers : rest.map s₁.memory.read = rest.map s.memory.read :=
      List.map_congr_left fun b hb => hkept₁.memory b fun h =>
        ha (List.mem_singleton.mp h ▸ hb)
    rw [hothers, Bool.true_and, hcarry₁] at hbytes hcarry
    refine ⟨t, hpass.trans ht, ?_, hcarry, ?_⟩
    · rw [List.map_cons, hfirst, hbytes]
      rfl
    · exact (hkept₁.mono (by simp)).trans (hkept.mono (by simp))

/-- **Shifts are exact at any length, and rotations undo each other.** A number whose bytes lie at
different addresses, however they are scattered, is doubled by a shift or a rotation to the left of
its lowest byte and rotations of those above it, and halved by one to the right of its highest
byte and rotations of those below it. A rotation of all of it and one back the other way leave every
byte and the carry as they were. -/
theorem shifts_exact (hne : addresses ≠ []) (hd : addresses.Nodup) (s : Cpu) :
    (∃ t, asl.pass rol addresses s = .ok () t ∧ s.Doubled false addresses t) ∧
    (∃ t, rol.pass rol addresses s = .ok () t ∧ s.Doubled s.flags.carry addresses t ∧
      ∃ u, ror.pass ror addresses.reverse t = .ok () u ∧ s.Restored addresses u) ∧
    (∃ t, lsr.pass ror addresses.reverse s = .ok () t ∧ s.Halved false addresses t) ∧
    ∃ t, ror.pass ror addresses.reverse s = .ok () t ∧ s.Halved s.flags.carry addresses t ∧
      ∃ u, rol.pass rol addresses t = .ok () u ∧ s.Restored addresses u := by
  have hd' : addresses.reverse.Nodup := List.nodup_reverse.mpr hd
  have hne' : addresses.reverse ≠ [] := fun h => hne (List.reverse_eq_nil_iff.mp h)
  refine ⟨?_, ?_, ?_, ?_⟩
  · obtain ⟨t, ht, h⟩ := rotated_pass (f := asl) (g := rol) rfl rfl hd (.inl hne) s
    exact ⟨t, ht, h.doubled⟩
  · obtain ⟨t, ht, h⟩ := rotated_pass (f := rol) (g := rol) rfl rfl hd (.inl hne) s
    obtain ⟨u, hu, h'⟩ := rotated_pass (f := ror) (g := ror) rfl rfl hd' (.inl hne') t
    exact ⟨t, ht, h.doubled, u, hu, h.doubled.halved h'.halved⟩
  · obtain ⟨t, ht, h⟩ := rotated_pass (f := lsr) (g := ror) rfl rfl hd' (.inl hne') s
    exact ⟨t, ht, h.halved⟩
  · obtain ⟨t, ht, h⟩ := rotated_pass (f := ror) (g := ror) rfl rfl hd' (.inl hne') s
    obtain ⟨u, hu, h'⟩ := rotated_pass (f := rol) (g := rol) rfl rfl hd (.inl hne) t
    exact ⟨t, ht, h.halved, u, hu, h.halved.doubled h'.doubled⟩

/-- Three bytes of a number, the highest between the two others. -/
def scattered : Cpu := Cpu.powerOn (Memory.zero.writeBytes 0x0010 [0xFF, 0x81, 0x80])

/-- The number doubles past its three bytes. -/
theorem scattered_doubles : ∃ t, asl.pass rol [0x0012, 0x0010, 0x0011] scattered = .ok () t ∧
    scattered.memory.number [0x0012, 0x0010, 0x0011] = 0x81FF80 ∧
    t.memory.number [0x0012, 0x0010, 0x0011] = 0x03FF00 ∧ t.flags.carry = true := by
  have hd : ([0x0012, 0x0010, 0x0011] : List Word).Nodup := by decide
  obtain ⟨⟨t, ht, hdoubled⟩, -⟩ := shifts_exact (List.cons_ne_nil _ _) hd scattered
  have hnumber : scattered.memory.number [0x0012, 0x0010, 0x0011] = 0x81FF80 := by decide +kernel
  have hexact := hdoubled.exact
  have hlt : t.memory.number [0x0012, 0x0010, 0x0011] < 256 ^ 3 := Memory.number_lt _ _
  rw [hnumber] at hexact
  cases hc : t.flags.carry with
  | false =>
    simp only [hc, Bool.toNat_false, Nat.mul_zero, Nat.add_zero] at hexact
    omega
  | true =>
    simp only [hc, Bool.toNat_true, List.length_cons, List.length_nil, Bool.toNat_false] at hexact
    exact ⟨t, ht, hnumber, by omega, hc⟩

end Family

end Nmos6502
