/-
  Findings and the report that collects them. A rule that is broken is data, a
  `Finding`; a report keeps the findings that no ignore rule matches.

  Main statement: `Report.addAll_findings` (a report filters, and keeps the order).
-/

namespace ExtensionAudit

/-- How bad a finding is. -/
inductive Severity where
  | info
  | warning
  | error
  deriving DecidableEq, Repr

namespace Severity

def name : Severity → String
  | .info => "info"
  | .warning => "warning"
  | .error => "error"

def rank : Severity → Nat
  | .info => 0
  | .warning => 1
  | .error => 2

end Severity

/-- What a rule found: where, by which rule, and in which words. -/
structure Finding where
  path : String
  line : Option Nat
  identifier : String
  message : String
  severity : Severity
  deriving DecidableEq, Repr

namespace Finding

def error (path identifier message : String) : Finding :=
  ⟨path, none, identifier, message, .error⟩

/-- A finding of severity `warning` without a line. -/
def warning (path identifier message : String) : Finding :=
  ⟨path, none, identifier, message, .warning⟩

def atLine (f : Finding) (line : Nat) : Finding := { f with line := some line }

end Finding

/-- A request to leave out findings: of this identifier, and of this path and message where
those are given. -/
structure IgnoreRule where
  identifier : String
  path : Option String
  message : Option String
  deriving DecidableEq, Repr

/-- Whether the rule asks to leave the finding out. -/
def IgnoreRule.matches (r : IgnoreRule) (f : Finding) : Bool :=
  r.identifier == f.identifier && r.path.all (· == f.path) && r.message.all (· == f.message)

/-- The findings of a run, and the rules for leaving some out. -/
structure Report where
  findings : List Finding
  ignores : List IgnoreRule
  deriving DecidableEq, Repr

namespace Report

/-- A report without findings. -/
def withIgnores (ignores : List IgnoreRule) : Report := ⟨[], ignores⟩

/-- Whether some rule of the report leaves the finding out. -/
def ignored (r : Report) (f : Finding) : Bool := r.ignores.any (·.matches f)

/-- Adds a finding unless it is left out. -/
def add (r : Report) (f : Finding) : Report :=
  if r.ignored f then r else { r with findings := r.findings ++ [f] }

def addAll (r : Report) (fs : List Finding) : Report := fs.foldl add r

def count (r : Report) (s : Severity) : Nat := r.findings.countP (·.severity = s)

def hasErrors (r : Report) : Bool := r.findings.any (·.severity = .error)

@[simp] theorem add_ignores (r : Report) (f : Finding) : (r.add f).ignores = r.ignores := by
  unfold add; split <;> rfl

@[simp] theorem add_findings (r : Report) (f : Finding) :
    (r.add f).findings = r.findings ++ [f].filter (! r.ignored ·) := by
  unfold add; split <;> simp_all [List.filter]

theorem ignored_add (r : Report) (f : Finding) : (r.add f).ignored = r.ignored := by
  funext g; simp [ignored]

theorem addAll_cons (r : Report) (f : Finding) (fs : List Finding) :
    r.addAll (f :: fs) = (r.add f).addAll fs := rfl

theorem addAll_append (r : Report) (fs gs : List Finding) :
    r.addAll (fs ++ gs) = (r.addAll fs).addAll gs := List.foldl_append

theorem addAll_findings (r : Report) (fs : List Finding) :
    (r.addAll fs).findings = r.findings ++ fs.filter (! r.ignored ·) := by
  induction fs generalizing r with
  | nil => simp [addAll]
  | cons f fs ih =>
    rw [addAll_cons, ih, add_findings, ignored_add, List.append_assoc]
    rw [← List.filter_append]
    rfl

@[simp] theorem addAll_withIgnores_nil (fs : List Finding) :
    ((withIgnores []).addAll fs).findings = fs := by
  rw [addAll_findings]
  exact (List.nil_append _).trans (List.filter_eq_self.mpr fun _ _ => rfl)

end Report

end ExtensionAudit
