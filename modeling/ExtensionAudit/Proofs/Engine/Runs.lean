import ExtensionAudit.Engine.Basic
import ExtensionAudit.Proofs.Results
/-
  Runs as functions of a world. A run takes the world in which it begins to its
  result and the world in which it ends, and a step that fails ends the run there.
-/

namespace ExtensionAudit.Run

variable {α β : Type}

/-- The result of a run that begins in a world, and the world in which it ends. -/
def runIn (run : Run α) (w : World) : Except Failure α × World := run.run.run w

theorem runIn_pure (a : α) (w : World) : (pure a : Run α).runIn w = (.ok a, w) := rfl

theorem runIn_bind (run : Run α) (f : α → Run β) (w : World) :
    (run >>= f).runIn w =
      match run.runIn w with
      | (.ok a, after) => (f a).runIn after
      | (.error e, after) => (.error e, after) := by
  simp only [runIn, ExceptT.run_bind, StateT.run_bind]
  cases hrun : run.run.run w with
  | mk result after => cases result <;> rfl

theorem runIn_map (f : α → β) (run : Run α) (w : World) :
    (f <$> run).runIn w = ((run.runIn w).1.map f, (run.runIn w).2) := by
  rw [← bind_pure_comp, runIn_bind]
  cases hrun : run.runIn w with
  | mk result after => cases result <;> rfl

theorem runIn_get (w : World) : (get : Run World).runIn w = (.ok w, w) := rfl

theorem runIn_modify (f : World → World) (w : World) :
    (modify f : Run Unit).runIn w = (.ok (), f w) := rfl

theorem runIn_checkpoint_eq (w : World) : checkpoint.runIn w =
    match w.cancellation.pass? with
    | none => (.error .cancelled, w)
    | some c => (.ok (), { w with cancellation := c }) := by
  obtain ⟨fs, ⟨_ | _ | n⟩, calls⟩ := w <;> rfl

theorem runIn_checkpoint {w : World} (h : w.cancellation = .never) :
    checkpoint.runIn w = (.ok (), w) := by
  obtain ⟨fs, cancellation, calls⟩ := w
  obtain rfl : cancellation = .never := h
  exact runIn_checkpoint_eq _

theorem runIn_cancelIf_false (w : World) : (cancelIf false).runIn w = (.ok (), w) := rfl

end ExtensionAudit.Run
