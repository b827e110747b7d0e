import ExtensionAudit.Engine.Scope
import ExtensionAudit.Php.Lint
import ExtensionAudit.Php.Table
/-
  What a run works with and what it changes. The file system, the cancellation and
  the record of linter calls are kept even where a run fails.
-/

namespace ExtensionAudit

/-- Whether a run only reports or also changes templates. -/
inductive Mode where
  | check
  | fix
  deriving DecidableEq, Repr

/-- What a run is given: the migrations, the compatibility table, the linter, and the process
that writes. -/
structure Setup where
  registry : Registry
  table : CompatibilityTable
  linter : Linter
  process : WritingProcess

/-- What a run may change. The calls of the linter are kept last first. -/
structure World where
  fs : FileSystem
  cancellation : Cancellation
  lintCalls : List (String × Path)

abbrev Run := ExceptT Failure (StateM World)

/-- What a run found, and which files it rewrote. -/
structure Outcome where
  findings : List Finding
  fixed : List Path
  deriving DecidableEq, Repr

namespace Outcome

/-- Nothing found and nothing changed. -/
def empty : Outcome := ⟨[], []⟩

def append (a b : Outcome) : Outcome := ⟨a.findings ++ b.findings, a.fixed ++ b.fixed⟩

def hasErrors (o : Outcome) : Bool := o.findings.any (·.severity = .error)

end Outcome

namespace Run

def ofCancellable {α : Type} (step : Cancellable α) : Run α :=
  ExceptT.mk fun w =>
    let (result, c) := (step.run).run w.cancellation
    (result, { w with cancellation := c })

def reading {α : Type} (f : FileSystem → Except Failure α) : Run α :=
  ExceptT.mk fun w => (f w.fs, w)

def checkpoint : Run Unit := ofCancellable ExtensionAudit.checkpoint

def cancelIf (asked : Bool) : Run Unit :=
  modify fun w => if asked then { w with cancellation := .cancelled } else w

end Run

end ExtensionAudit
