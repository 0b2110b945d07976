import Nmos6502.Snapshot

/-! What can be asked of a machine.

An `Operation` is one call with its arguments, and an `Answer` is all it gives back; an
observer answers with whatever it makes of the state it is shown. A sequence of operations
is a list of them: `Machine.play` is where the machine ends up and `Machine.history` what
is seen on the way.

Requests only ever raise latches, so any number of them is one `Machine.raise`. -/
namespace Nmos6502

inductive Operation (α : Type) where
  | cycle
  | cycleWith (observe : Cpu → α)
  | run (budget : Nat)
  | runUntilHalt (limit : Nat)
  | takeInterrupt
  | request (interrupt : Interrupt)
  | load (image : Option (List Byte))
  | reset
  | restore (snapshot : Snapshot)
  | clearFailure
  | save
  | snapshot

/-- What an operation answers. -/
inductive Answer (α : Type) where
  | done
  | cycled (advanced : Bool)
  | observed (advanced : Bool) (value : α)
  | ran (count : Nat)
  | ranUntilHalt (result : Except RunError Nat)
  | loaded (result : Except Memory.LoadError Unit)
  | saved (image : List Byte)
  | captured (snapshot : Snapshot)

namespace Operation
variable {α : Type}

/-- The operations that only let cycles pass or request interrupts. -/
def drives : Operation α → Bool
  | cycle | cycleWith _ | run _ | runUntilHalt _ | request _ => true
  | _ => false

/-- Whether the operation requests the interrupt. -/
def requests (k : Interrupt) : Operation α → Bool
  | request j => j == k
  | _ => false

end Operation

namespace Machine
variable {α : Type}

/-! ### Requests -/

def request (m : Machine) : Interrupt → Machine
  | .hardware => m.requestHardware
  | .software => m.requestSoftware

/-- The machine with its latches raised. -/
def raise (m : Machine) (hardware software : Bool) : Machine :=
  {m with
    cpu.hardwareRequest := m.cpu.hardwareRequest || hardware
    cpu.softwareRequest := m.cpu.softwareRequest || software}

@[simp] theorem raise_false (m : Machine) : m.raise false false = m := by
  simp [raise]

@[simp] theorem raise_raise (m : Machine) (h₁ s₁ h₂ s₂ : Bool) :
    (m.raise h₁ s₁).raise h₂ s₂ = m.raise (h₁ || h₂) (s₁ || s₂) := by
  simp [raise, Bool.or_assoc]

/-- A request raises the latch of its own kind. -/
theorem request_eq_raise (m : Machine) (k : Interrupt) :
    m.request k = m.raise (k == .hardware) (k == .software) := by
  cases k <;> simp [request, requestHardware, requestSoftware, raise]

/-! ### Operations -/

/-- Carry out an operation. -/
def perform (m : Machine) : Operation α → Answer α × Machine
  | .cycle => (.cycled m.cycle.1, m.cycle.2)
  | .cycleWith observe =>
    let ((advanced, value), m) := m.cycleWith observe
    (.observed advanced value, m)
  | .run budget => (.ran (m.run budget).1, (m.run budget).2)
  | .runUntilHalt limit => (.ranUntilHalt (m.runUntilHalt limit).1, (m.runUntilHalt limit).2)
  | .takeInterrupt => (.done, m.takeInterrupt)
  | .request interrupt => (.done, m.request interrupt)
  | .load image => (.loaded (m.load image).1, (m.load image).2)
  | .reset => (.done, m.reset)
  | .restore snapshot => (.done, m.restore snapshot)
  | .clearFailure => (.done, m.clearFailure)
  | .save => (.saved m.save, m)
  | .snapshot => (.captured m.snapshot, m)

/-- Carry out operations one after another. -/
def play (m : Machine) : List (Operation α) → Machine
  | [] => m
  | op :: rest => (m.perform op).2.play rest

/-- Each operation's answer, with the state and the failure it leaves. -/
def history (m : Machine) : List (Operation α) → List (Answer α × Cpu × Option Failure)
  | [] => []
  | op :: rest =>
    let (answer, m) := m.perform op
    (answer, m.cpu, m.failure) :: m.history rest

end Machine

end Nmos6502
