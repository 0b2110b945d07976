import Nmos6502.Proofs.Stack.Contents

/-! The stack as a list.

Beside the page and its pointer stands a list of bytes with room for 256, the one pushed last first
(`Lifo`). A stack holds a list when the list is what it would give back and the pointer is as many
slots below its bottom (`Stack.Holds`); whatever the list can answer next, the stack answers the
same and holds the new list (`Stack.Holds.call`). So it does over any run of calls
(`Stack.calls_refine`), also when words lie across the end of the page, and when the page is full
and the pointer is back at its bottom. Beyond that each push takes the slot of the oldest byte
(`Stack.overwrites`). -/
namespace Nmos6502

namespace Stack

/-! ### Calls -/

/-- What may be asked of a stack. -/
inductive Call where
  | push (value : Byte)
  | pull
  | pushWord (value : Word)
  | pullWord
  | peek
deriving DecidableEq, Repr

/-- What comes back. -/
inductive Reply where
  | done
  | byte (value : Byte)
  | word (value : Word)
deriving DecidableEq, Repr

/-- The slots that a call pushes to. -/
def Call.slots (pointer : Byte) : Call → List Word
  | push _ => [slot pointer]
  | pushWord _ => [slot pointer, slot (pointer - 1)]
  | pull | pullWord | peek => []

def call (s : Stack) : Call → Reply × Stack
  | .push v => (.done, s.push v)
  | .pull => (.byte s.pull.1, s.pull.2)
  | .pushWord w => (.done, s.pushWord w)
  | .pullWord => (.word s.pullWord.1, s.pullWord.2)
  | .peek => (.byte s.peek, s)

def calls (s : Stack) : List Call → List Reply × Stack
  | [] => ([], s)
  | c :: rest =>
    let answered := s.call c
    let others := answered.2.calls rest
    (answered.1 :: others.1, others.2)

/-- All the slots that a run of calls pushes to. -/
def slots (s : Stack) : List Call → List Word
  | [] => []
  | c :: rest => c.slots s.pointer ++ (s.call c).2.slots rest

end Stack

namespace Lifo

open Stack (Call Reply)

/-- What a list of bytes answers, unless it is short of bytes or of room. A word goes on high byte
first. -/
def call (bytes : List Byte) (c : Call) : Option (Reply × List Byte) :=
  match c, bytes with
  | .push v, bytes => if bytes.length + 1 ≤ 256 then some (.done, v :: bytes) else none
  | .pushWord w, bytes =>
    if bytes.length + 2 ≤ 256 then some (.done, w.low :: w.high :: bytes) else none
  | .pull, b :: rest => some (.byte b, rest)
  | .pullWord, low :: high :: rest => some (.word (.ofBytes low high), rest)
  | .peek, b :: rest => some (.byte b, b :: rest)
  | .pull, [] | .pullWord, [] | .pullWord, [_] | .peek, [] => none

def calls (bytes : List Byte) : List Call → Option (List Reply × List Byte)
  | [] => some ([], bytes)
  | c :: rest =>
    (call bytes c).bind fun answered =>
      (calls answered.2 rest).map fun others => (answered.1 :: others.1, others.2)

variable {bytes next below left : List Byte} {c : Call} {reply : Reply} {cs : List Call}
  {replies : List Reply}

theorem calls_cons_eq_some (h : calls bytes (c :: cs) = some (replies, left)) :
    ∃ reply next others, call bytes c = some (reply, next) ∧
      calls next cs = some (others, left) ∧ replies = reply :: others := by
  obtain ⟨⟨reply, next⟩, hc, h⟩ := Option.bind_eq_some_iff.mp h
  obtain ⟨⟨others, _⟩, hcs, h⟩ := Option.map_eq_some_iff.mp h
  cases h
  exact ⟨reply, next, others, hc, hcs, rfl⟩

/-- What answers a run answers the first calls of it. -/
theorem calls_append_eq_some {before after : List Call}
    (h : calls bytes (before ++ after) = some (replies, left)) :
    ∃ first next rest, calls bytes before = some (first, next) ∧
      calls next after = some (rest, left) ∧ replies = first ++ rest := by
  induction before generalizing bytes replies with
  | nil => exact ⟨[], bytes, replies, rfl, h, rfl⟩
  | cons c before ih =>
    obtain ⟨reply, mid, others, hc, hcs, rfl⟩ := calls_cons_eq_some h
    obtain ⟨first, next, rest, hbefore, hafter, rfl⟩ := ih hcs
    refine ⟨reply :: first, next, rest, ?_, hafter, rfl⟩
    simp only [calls, hc, Option.bind_some, hbefore, Option.map_some]

/-- Bytes below those that a call needs stay where they are. -/
theorem call_over {reply' : Reply} (h : call bytes c = some (reply, next))
    (h' : call (bytes ++ below) c = some (reply', left)) : left = next ++ below := by
  cases c with
  | push v | pushWord w =>
    simp only [call] at h h'
    split at h
    · split at h'
      · cases h
        cases h'
        rfl
      · cases h'
    · cases h
  | pull | peek =>
    cases bytes with
    | nil => cases h
    | cons b rest =>
      cases h
      cases h'
      rfl
  | pullWord =>
    rcases bytes with _ | ⟨low, _ | ⟨high, rest⟩⟩
    · cases h
    · cases h
    · cases h
      cases h'
      rfl

theorem calls_over {replies' : List Reply} (h : calls bytes cs = some (replies, next))
    (h' : calls (bytes ++ below) cs = some (replies', left)) : left = next ++ below := by
  induction cs generalizing bytes replies replies' with
  | nil =>
    cases h
    cases h'
    rfl
  | cons c cs ih =>
    obtain ⟨_, mid, _, hc, hcs, -⟩ := calls_cons_eq_some h
    obtain ⟨_, mid', _, hc', hcs', -⟩ := calls_cons_eq_some h'
    obtain rfl := call_over hc hc'
    exact ih hcs hcs'

/-- Once all that was pushed after a word is pulled, the word is on top. -/
theorem exists_below_of_matched {before inner : List Call} {w : Word} {answers : List Reply}
    (h : calls [] (before ++ .pushWord w :: inner) = some (replies, left))
    (hi : calls [] inner = some (answers, [])) : ∃ below, left = w.low :: w.high :: below := by
  obtain ⟨_, below, _, -, hword, -⟩ := calls_append_eq_some h
  obtain ⟨_, next, _, hpush, hinner, -⟩ := calls_cons_eq_some hword
  simp only [call] at hpush
  split at hpush <;> cases hpush
  exact ⟨below, calls_over hi hinner⟩

end Lifo

namespace Stack
variable {s : Stack} {bottom : Byte} {bytes next : List Byte} {c : Call} {reply : Reply}
  {cs : List Call} {replies : List Reply}

/-! ### A stack that holds a list -/

/-- The bytes are on the stack, in the slots from the bottom down. -/
structure Holds (s : Stack) (bottom : Byte) (bytes : List Byte) : Prop where
  pointer : s.pointer = bottom - BitVec.ofNat 8 bytes.length
  top : s.top bytes.length = bytes

theorem holds_nil (s : Stack) : s.Holds s.pointer [] where
  pointer := (BitVec.sub_zero _).symm
  top := rfl

theorem Holds.push (h : s.Holds bottom bytes) (v : Byte) (room : bytes.length + 1 ≤ 256) :
    (s.push v).Holds bottom (v :: bytes) where
  pointer := by
    have hpointer := h.pointer
    show s.pointer - 1 = bottom - BitVec.ofNat 8 (bytes.length + 1)
    bv_omega
  top := by
    rw [List.length_cons, top_push _ _ room, h.top]

theorem Holds.pull {b : Byte} (h : s.Holds bottom (b :: bytes)) :
    s.pull.1 = b ∧ s.pull.2.Holds bottom bytes := by
  obtain ⟨hb, hrest⟩ := pull_of_top h.top
  have hpointer := h.pointer
  rw [List.length_cons] at hpointer
  refine ⟨hb, ?_, hrest⟩
  show s.pointer + 1 = bottom - BitVec.ofNat 8 bytes.length
  bv_omega

/-- A stack that holds a list answers as the list does. -/
theorem Holds.call (h : s.Holds bottom bytes) (hc : Lifo.call bytes c = some (reply, next)) :
    (s.call c).1 = reply ∧ (s.call c).2.Holds bottom next := by
  cases c with
  | push v =>
    simp only [Lifo.call] at hc
    split at hc <;> cases hc
    exact ⟨rfl, h.push v ‹_›⟩
  | pushWord w =>
    simp only [Lifo.call] at hc
    split at hc <;> cases hc
    rename_i room
    have hhigh : (s.push w.high).Holds bottom (w.high :: bytes) :=
      h.push w.high (Nat.le_of_succ_le room)
    exact ⟨rfl, hhigh.push w.low room⟩
  | pull =>
    cases bytes with
    | nil => cases hc
    | cons b rest =>
      cases hc
      obtain ⟨hb, hrest⟩ := h.pull
      exact ⟨congrArg Reply.byte hb, hrest⟩
  | pullWord =>
    rcases bytes with _ | ⟨low, _ | ⟨high, rest⟩⟩
    · cases hc
    · cases hc
    · cases hc
      obtain ⟨hlow, hlower⟩ := h.pull
      obtain ⟨hhigh, hrest⟩ := hlower.pull
      refine ⟨congrArg Reply.word ?_, hrest⟩
      show Word.ofBytes s.pull.1 s.pull.2.pull.1 = _
      rw [hlow, hhigh]
  | peek =>
    cases bytes with
    | nil => cases hc
    | cons b rest =>
      cases hc
      -- to peek is to pull and put the pointer back
      exact ⟨congrArg Reply.byte h.pull.1, h⟩

theorem Holds.calls (h : s.Holds bottom bytes) (hc : Lifo.calls bytes cs = some (replies, next)) :
    (s.calls cs).1 = replies ∧ (s.calls cs).2.Holds bottom next := by
  induction cs generalizing s bytes replies with
  | nil =>
    cases hc
    exact ⟨rfl, h⟩
  | cons c cs ih =>
    obtain ⟨reply, mid, others, hfirst, hrest, rfl⟩ := Lifo.calls_cons_eq_some hc
    obtain ⟨hreply, hmid⟩ := h.call hfirst
    obtain ⟨hothers, hnext⟩ := ih hmid hrest
    exact ⟨congr (congrArg List.cons hreply) hothers, hnext⟩

/-! ### Everything else -/

theorem read_call {a : Word} (h : a ∉ c.slots s.pointer) :
    (s.call c).2.memory.read a = s.memory.read a := by
  cases c with
  | push v => exact Memory.read_write_of_ne _ _ (List.ne_of_not_mem_cons h).symm
  | pushWord w =>
    have hhigh : slot s.pointer ≠ a := (List.ne_of_not_mem_cons h).symm
    have hlow : slot (s.pointer - 1) ≠ a :=
      (List.ne_of_not_mem_cons (List.not_mem_of_not_mem_cons h)).symm
    show ((s.memory.write (slot s.pointer) w.high).write (slot (s.pointer - 1)) w.low).read a = _
    rw [Memory.read_write_of_ne _ _ hlow, Memory.read_write_of_ne _ _ hhigh]
  | pull | pullWord | peek => rfl

theorem read_calls {a : Word} (h : a ∉ s.slots cs) :
    (s.calls cs).2.memory.read a = s.memory.read a := by
  induction cs generalizing s with
  | nil => rfl
  | cons c cs ih =>
    obtain ⟨hfirst, hrest⟩ := not_or.mp (fun hor => h (List.mem_append.mpr hor))
    exact (ih hrest).trans (read_call hfirst)

theorem high_slot (pointer : Byte) : (slot pointer).high = 0x01 := by
  rw [slot_eq, Word.high_ofBytes]

theorem high_of_mem_slots {a : Word} (h : a ∈ s.slots cs) : a.high = 0x01 := by
  induction cs generalizing s with
  | nil => cases h
  | cons c cs ih =>
    rcases List.mem_append.mp h with hfirst | hrest
    · cases c with
      | push v => exact List.mem_singleton.mp hfirst ▸ high_slot _
      | pushWord w =>
        rcases List.mem_cons.mp hfirst with rfl | hlow
        · exact high_slot _
        · exact List.mem_singleton.mp hlow ▸ high_slot _
      | pull | pullWord | peek => cases hfirst
    · exact ih hrest

/-! ### A full page -/

/-- A push with no room left for it: it takes the slot of the oldest of the 256 bytes and no
other. -/
structure Overwrites (s : Stack) (v : Byte) : Prop where
  oldest : (s.top 256).getLast? = some (s.memory.read (slot s.pointer))
  others : ∀ a ≠ slot s.pointer, (s.push v).memory.read a = s.memory.read a
  top : (s.push v).top 256 = v :: (s.top 256).dropLast

theorem top_succ (s : Stack) (n : Nat) :
    s.top (n + 1) = s.top n ++ [s.memory.read (slot (s.pointer + 1 + BitVec.ofNat 8 n))] := by
  induction n generalizing s with
  | zero =>
    rw [BitVec.add_zero]
    rfl
  | succ n ih =>
    have hnext : s.pointer + 1 + 1 + BitVec.ofNat 8 n =
        s.pointer + 1 + BitVec.ofNat 8 (n + 1) := by
      bv_omega
    rw [← hnext]
    exact congrArg (s.pull.1 :: ·) (ih s.pull.2)

theorem overwrites (s : Stack) (v : Byte) : s.Overwrites v := by
  have hlast : s.top 256 = s.top 255 ++ [s.memory.read (slot s.pointer)] := by
    have hround : s.pointer + 1 + BitVec.ofNat 8 255 = s.pointer := by bv_omega
    rw [top_succ s 255, hround]
  refine ⟨?_, fun a ha => Memory.read_write_of_ne _ _ ha.symm, ?_⟩
  · rw [hlast, List.getLast?_concat]
  · rw [top_push _ _ (by decide), hlast, List.dropLast_concat]

theorem length_top (s : Stack) (n : Nat) : (s.top n).length = n := by
  induction n generalizing s with
  | zero => rfl
  | succ n ih => exact congrArg (· + 1) (ih s.pull.2)

/-- However many bytes are pushed, the last 256 are there. -/
theorem top_pushes (s : Stack) (more : List Byte) :
    (s.calls (more.map .push)).2.top 256 = (more.reverse ++ s.top 256).take 256 := by
  induction more generalizing s with
  | nil => exact (List.take_of_length_le (Nat.le_of_eq (s.length_top 256))).symm
  | cons v more ih =>
    obtain ⟨others, hsplit⟩ := List.getLast?_eq_some_iff.mp (s.overwrites v).oldest
    have htop : (s.push v).top 256 = v :: others := by
      rw [(s.overwrites v).top, hsplit, List.dropLast_concat]
    have hlong : 256 ≤ (more.reverse ++ v :: others).length := by
      rw [← htop, List.length_append, length_top]
      exact Nat.le_add_left 256 _
    calc ((s.push v).calls (more.map .push)).2.top 256
        = (more.reverse ++ v :: others).take 256 := by rw [ih, htop]
      _ = (more.reverse ++ v :: others ++ [s.memory.read (slot s.pointer)]).take 256 :=
          (List.take_append_of_le_length hlong).symm
      _ = ((v :: more).reverse ++ s.top 256).take 256 := by
          rw [hsplit, List.reverse_cons, List.append_assoc, List.append_assoc]
          rfl

/-! ### Runs of calls -/

theorem calls_append (s : Stack) (before after : List Call) :
    (s.calls (before ++ after)).2 = ((s.calls before).2.calls after).2 := by
  induction before generalizing s with
  | nil => rfl
  | cons c before ih => exact ih (s.call c).2

/-- A run of calls does to a stack what it does to an empty list. -/
structure Refines (s : Stack) (cs : List Call) (replies : List Reply) (bytes : List Byte) :
    Prop where
  answered : (s.calls cs).1 = replies
  pointer : (s.calls cs).2.pointer = s.pointer - BitVec.ofNat 8 bytes.length
  top : (s.calls cs).2.top bytes.length = bytes
  others : ∀ a ∉ s.slots cs, (s.calls cs).2.memory.read a = s.memory.read a
  page : ∀ a ∈ s.slots cs, a.high = 0x01
  /-- Between the push of a word and the pull that gives it back, every byte pushed is pulled and
  no other. -/
  matched : ∀ before w inner answers, cs = before ++ .pushWord w :: inner →
    Lifo.calls [] inner = some (answers, []) → (s.calls cs).2.pullWord.1 = w
  full : bytes.length = 256 → ∀ (more : List Byte) (v : Byte),
    (s.calls (cs ++ more.map .push)).2.top 256 = (more.reverse ++ bytes).take 256 ∧
      (s.calls (cs ++ more.map .push)).2.Overwrites v

/-- **The stack refines a list.** Whatever calls a list with room for 256 bytes can answer, a stack
answers alike from any memory and pointer. All along the pointer is as far below its first value as
there are bytes in the list, and only slots that were pushed to change. A word comes back whole, and
each push to a full page takes the place of the oldest byte alone. -/
theorem calls_refine (h : Lifo.calls [] cs = some (replies, bytes)) (s : Stack) :
    s.Refines cs replies bytes ∧
      ∀ before, before <+: cs → ∃ replies bytes, Lifo.calls [] before = some (replies, bytes) ∧
        (s.calls before).2.pointer = s.pointer - BitVec.ofNat 8 bytes.length := by
  obtain ⟨hreplies, hholds⟩ := s.holds_nil.calls h
  refine ⟨⟨hreplies, hholds.pointer, hholds.top, fun _ => read_calls,
    fun _ => high_of_mem_slots, ?_, ?_⟩, ?_⟩
  · rintro before w inner answers rfl hinner
    obtain ⟨below, rfl⟩ := Lifo.exists_below_of_matched h hinner
    exact (pullWord_of_top hholds.top).1.trans w.ofBytes_low_high
  · intro hfull more v
    have htop := hholds.top
    rw [hfull] at htop
    rw [calls_append]
    refine ⟨?_, overwrites _ v⟩
    rw [top_pushes, htop]
  · rintro before ⟨after, rfl⟩
    obtain ⟨first, next, _, hbefore, -, -⟩ := Lifo.calls_append_eq_some h
    exact ⟨first, next, hbefore, (s.holds_nil.calls hbefore).2.pointer⟩

/-- With the pointer at the end of its page a word lies across the end, and comes back from
there. -/
theorem straddling_refines :
    (Stack.calls ⟨.zero, 0x00⟩ [.pushWord 0x1234, .peek, .push 0x56, .pull, .pullWord]).1 =
      [.done, .byte 0x34, .done, .byte 0x56, .word 0x1234] := by
  have h : Lifo.calls [] [.pushWord 0x1234, .peek, .push 0x56, .pull, .pullWord] =
      some ([.done, .byte 0x34, .done, .byte 0x56, .word 0x1234], []) := by decide
  exact (calls_refine h ⟨.zero, 0x00⟩).1.answered

end Stack

end Nmos6502
