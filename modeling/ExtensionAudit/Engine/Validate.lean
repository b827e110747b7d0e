import ExtensionAudit.Engine.Templates
import ExtensionAudit.Extension.Rules
/-
  Validation of an extension or of a whole scope: an extension's own rules, the
  syntax check of its sources, and the migrations over its templates. One report
  with the ignore rules of the extension or project is handed from each of them to
  the next.
-/

namespace ExtensionAudit

namespace Run

/-- The identifier of findings about PHP sources and of trouble in checking them. -/
def lintIdentifier : String := "php.linter"

/-- A warning that sources could not be checked. -/
def lintWarning (message : String) : Finding :=
  .warning Manifest.fileName lintIdentifier message

/-- The finding for a syntax error in a file below `dir`. -/
def sourceFinding (root dir : Path) (e : SourceError) : Finding :=
  let shown := Path.relativeTo root (dir.child e.file)
  let f := Finding.error shown lintIdentifier (e.file ++ ": " ++ e.message)
  match e.line with
  | some line => f.atLine line
  | none => f

def askLinter (l : Linter) (php : String) (dir : Path) : Run (Except Failure (List SourceError)) :=
  do
    modify fun w => { w with lintCalls := (php, dir) :: w.lintCalls }
    cancelIf l.cancels
    return l.check (← get).fs php dir

/-- Reports the syntax errors below a directory, or that it could not be checked. -/
def lintDir (l : Linter) (root : Path) (php : String) (dir : Path) (report : Report) :
    Run Report := do
  match ← askLinter l php dir with
  | .ok errors => return report.addAll (errors.map (sourceFinding root dir))
  | .error .cancelled => throw .cancelled
  | .error e => return report.add (lintWarning ("Could not lint php files: " ++ e.message))

/-- Checks the sources of directories in order; the run can end in front of each. -/
def lintDirs (l : Linter) (root : Path) (php : String) (report : Report) :
    List Path → Run Report
  | [] => return report
  | dir :: dirs => do
    checkpoint
    if (← get).fs.isDirectory dir then
      lintDirs l root php (← lintDir l root php dir report) dirs
    else lintDirs l root php report dirs

/-- Checks the sources of directories with the PHP version that the constraint needs. Without
one there is a warning and no check. -/
def lintSources (s : Setup) (root : Path) (c : Constraint) (dirs : List Path) (report : Report) :
    Run Report := do
  if dirs.isEmpty then return report
  match s.table.phpVersion (← get).fs c with
  | .ok php => lintDirs s.linter root php report dirs
  | .error e =>
    return report.add
      (lintWarning ("Could not find min php version for plugin: " ++ e.message))

/-- The areas in the order in which they are visited. -/
def areas : List Area := [.administration, .storefront]

/-- Runs the migrations over the templates of areas in order, and reports what they find and
which files were changed. -/
def migrateAreas (s : Setup) (root : Path) (v : Version) (mode : Mode) (report : Report)
    (fixed : List Path) : List (Area × List Path) → Run (Report × List Path)
  | [] => return (report, fixed)
  | (a, dirs) :: rest => do
    let files ← reading fun fs => Template.files fs dirs
    let here ← migrate s root a v files mode
    migrateAreas s root v mode (report.addAll here.findings) (fixed ++ here.fixed) rest

/-- The findings that a report with these ignore rules keeps. -/
def kept (ignores : List IgnoreRule) (findings : List Finding) : List Finding :=
  ((Report.withIgnores ignores).addAll findings).findings

/-- Reports what there is under a known constraint: syntax errors where sources are checked, and
what the migrations for a version find. -/
def examine (s : Setup) (root : Path) (c : Constraint) (v : Version) (lint : Bool)
    (sources : List Path) (templates : List (Area × List Path)) (mode : Mode) (report : Report) :
    Run Outcome := do
  let report ← if lint then lintSources s root c sources report else pure report
  let (report, fixed) ← migrateAreas s root v mode report [] templates
  return ⟨report.findings, fixed⟩

/-- Validates an extension. When templates are changed the sources are not checked, nor are
those of bundles. -/
def validateExtension (s : Setup) (e : Extension) (mode : Mode) : Run Outcome := do
  checkpoint
  let fs := (← get).fs
  let report := e.validate fs (.withIgnores e.config.ignores)
  match e.constraint with
  | .error failure =>
    let broken := Finding.error Manifest.fileName lintIdentifier
      ("Could not parse onlishop version constraint: " ++ failure.message)
    return ⟨(report.add broken).findings, []⟩
  | .ok c =>
    let lint := decide (mode = .check ∧ e.kind = .plugin)
    let templates := areas.map fun a => (a, e.templateDirs fs a.directory)
    examine s e.path c c.lowerBound lint e.sourceDirs templates mode report

def validate (s : Setup) (e : Extension) : Run (List Finding) := do
  return (← validateExtension s e .check).findings

/-- Validates everything in a scope. When templates are changed the sources are not
checked. -/
def validateScope (s : Setup) (scope : Scope) (mode : Mode) : Run Outcome :=
  let report := (Report.withIgnores scope.ignores).addAll scope.loadFailures
  let lint := decide (mode = .check)
  let templates := areas.map fun a => (a, scope.templateDirs a)
  examine s scope.root scope.constraint scope.platformVersion lint scope.sourceDirs templates mode
    report

def validateProject (s : Setup) (root : Path) (policy : DiscoveryPolicy) (mode : Mode) :
    Run Outcome := do
  let fs := (← get).fs
  let scope ← ofCancellable (Scope.ofProject fs root policy)
  validateScope s scope mode

end Run

end ExtensionAudit
