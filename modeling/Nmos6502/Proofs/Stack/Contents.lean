import Nmos6502.Stack

/-! What is on the stack.

Nothing but the pointer is kept of a stack, so how much of its page is in use is up to whoever
pushed: `Stack.top` is the list of the bytes that so many pulls would give. A push puts one byte
before them as long as there are fewer than 256 (`top_push`), for then the slot it writes is
none of theirs; a pull takes the first one off. -/
namespace Nmos6502.Stack

/-- The bytes that so many pulls give, in the order they come off. -/
def top (s : Stack) : Nat → List Byte
  | 0 => []
  | n + 1 => s.pull.1 :: s.pull.2.top n

/-- A write to none of their slots leaves them. -/
theorem top_write (m : Memory) {a : Word} (v : Byte) {p : Byte} {n : Nat}
    (h : ∀ k < n, a ≠ slot (p + 1 + BitVec.ofNat 8 k)) :
    top ⟨m.write a v, p⟩ n = top ⟨m, p⟩ n := by
  induction n generalizing p with
  | zero => rfl
  | succ n ih =>
    have hfirst : a ≠ slot (p + 1) := by simpa using h 0 n.succ_pos
    have hrest : top ⟨m.write a v, p + 1⟩ n = top ⟨m, p + 1⟩ n := by
      apply ih
      intro k hk
      have hnext : p + 1 + 1 + BitVec.ofNat 8 k = p + 1 + BitVec.ofNat 8 (k + 1) := by bv_omega
      rw [hnext]
      exact h (k + 1) (Nat.succ_lt_succ hk)
    show (m.write a v).read (slot (p + 1)) :: top ⟨m.write a v, p + 1⟩ n = _
    rw [Memory.read_write_of_ne _ _ hfirst, hrest]
    rfl

/-- A push with room for it puts its byte before the others. -/
theorem top_push (s : Stack) (v : Byte) {n : Nat} (h : n < 256) :
    (s.push v).top (n + 1) = v :: s.top n := by
  have hfree (k : Nat) (hk : k < n) :
      slot s.pointer ≠ slot (s.pointer + 1 + BitVec.ofNat 8 k) := by
    intro hs
    have hp := slot_inj hs
    bv_omega
  show (s.push v).pull.1 :: (s.push v).pull.2.top n = _
  rw [pull_push]
  exact congrArg (v :: ·) (top_write s.memory v hfree)

theorem top_pushWord (s : Stack) (w : Word) {n : Nat} (h : n + 1 < 256) :
    (s.pushWord w).top (n + 2) = w.low :: w.high :: s.top n := by
  show ((s.push w.high).push w.low).top (n + 2) = _
  rw [top_push _ _ h, top_push _ _ (Nat.lt_of_succ_lt h)]

/-- A pull takes the first byte off. -/
theorem pull_of_top {s : Stack} {n : Nat} {b : Byte} {rest : List Byte}
    (h : s.top (n + 1) = b :: rest) : s.pull.1 = b ∧ s.pull.2.top n = rest :=
  List.cons.inj h

theorem pullWord_of_top {s : Stack} {n : Nat} {low high : Byte} {rest : List Byte}
    (h : s.top (n + 2) = low :: high :: rest) :
    s.pullWord.1 = .ofBytes low high ∧ s.pullWord.2.top n = rest := by
  obtain ⟨hlow, hrest⟩ := pull_of_top h
  obtain ⟨hhigh, hrest⟩ := pull_of_top hrest
  refine ⟨?_, hrest⟩
  rw [← hlow, ← hhigh]
  rfl

end Nmos6502.Stack
