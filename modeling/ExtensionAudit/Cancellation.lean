import ExtensionAudit.Failure
/-
  Runs that can be cancelled. A run passes checkpoints; cancellation is the number
  of checkpoints that are still passed, so that it can come at any moment, and
  once it has come no further checkpoint is passed.
-/

namespace ExtensionAudit

/-- How many more checkpoints are passed; none stands for all of them. -/
structure Cancellation where
  remaining : Option Nat
  deriving DecidableEq, Repr

namespace Cancellation

def never : Cancellation := ⟨none⟩

def cancelled : Cancellation := ⟨some 0⟩

/-- The cancellation after a checkpoint, if the checkpoint is passed. -/
def pass? : Cancellation → Option Cancellation
  | ⟨none⟩ => some ⟨none⟩
  | ⟨some 0⟩ => none
  | ⟨some (n + 1)⟩ => some ⟨some n⟩

end Cancellation

/-- A step of a run that can be cancelled. -/
abbrev Cancellable := ExceptT Failure (StateM Cancellation)

/-- Passes a checkpoint, or ends the run when it is cancelled. -/
def checkpoint : Cancellable Unit := do
  match (← get).pass? with
  | some c => set c
  | none => throw .cancelled

/-- A result that does not depend on cancellation. -/
def liftExcept {α : Type} (r : Except Failure α) : Cancellable α := ExceptT.mk (pure r)

end ExtensionAudit
