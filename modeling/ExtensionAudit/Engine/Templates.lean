import ExtensionAudit.Engine.Basic
/-
  Migrations over templates. Every file is treated on its own: one that cannot be
  read, parsed, migrated or written is reported and keeps its content, and a file
  is written only when a migration changed its tree.
-/

namespace ExtensionAudit

namespace Template

def endings : List String := ["twig", "html"]

def isTemplate (p : Path) : Bool :=
  p.extension?.any fun ending => endings.contains (String.ofList ending)

/-- The directory that is not looked into. -/
def isSkipped (name : Text) : Bool := name = "node_modules".toList

/-- The templates below each of these directories. -/
def filesOfAll (fs : FileSystem) : List Path → Except Failure (List Path)
  | [] => .ok []
  | dir :: dirs => do
    let files ← (fs.filesBelow isSkipped dir).mapError (.io dir)
    return files.filter isTemplate ++ (← filesOfAll fs dirs)

/-- The templates below directories, in path order and each once. -/
def files (fs : FileSystem) (dirs : List Path) : Except Failure (List Path) :=
  (filesOfAll fs dirs).map fun ps => FileSystem.dropRepeated (ps.mergeSort Path.le)

/-- What became of a file: what was found, the file system afterwards, whether the file was
changed, and whether the run was cancelled. -/
structure Treatment where
  findings : List Finding
  fs : FileSystem
  fixed : Bool
  cancels : Bool

namespace Treatment

def reported (fs : FileSystem) (findings : List Finding) (cancels : Bool) : Treatment :=
  ⟨findings, fs, false, cancels⟩

end Treatment

/-- What migrations find in a tree, under the path of its file. -/
def check (entries : List RegistryEntry) (path : String) (nodes : List Markup.Node) :
    List Finding :=
  entries.flatMap fun e => (e.migration.check nodes).map fun f => { f with path := path }

/-- Applies migrations in order: the tree and whether it changed, or which migration failed and
why. In both cases, whether the run was cancelled. -/
def fixAll : List RegistryEntry → List Markup.Node → Bool →
    Except (String × Failure) (List Markup.Node × Bool) × Bool
  | [], nodes, changed => (.ok (nodes, changed), false)
  | e :: rest, nodes, changed =>
    match e.migration.fix nodes with
    | .error failure => (.error (e.migration.id, failure), e.migration.cancels)
    | .ok (nodes, fixed) =>
      let (result, cancels) := fixAll rest nodes (changed || fixed)
      (result, e.migration.cancels || cancels)

def fix (process : WritingProcess) (entries : List RegistryEntry) (fs : FileSystem) (shown : String)
    (file : Path) (d : Markup.Document) : Treatment :=
  match fixAll entries d.nodes false with
  | (.error (id, failure), cancels) =>
    .reported fs [.error shown "fixer.apply" (id ++ ": " ++ failure.message)] cancels
  | (.ok (_, false), cancels) => .reported fs [] cancels
  | (.ok (nodes, true), cancels) =>
    match fs.writeText file (Markup.Document.mk nodes).render process with
    | (fs, none) => ⟨[], fs, true, cancels⟩
    | (fs, some failure) =>
      .reported fs [.error shown "fixer.apply" failure.message] cancels

/-- Checks or migrates a file with at least one migration. -/
def treat (process : WritingProcess) (entries : List RegistryEntry) (mode : Mode) (root : Path)
    (fs : FileSystem) (file : Path) : Treatment :=
  let shown := Path.relativeTo root file
  match fs.readText file with
  | .error kind =>
    .reported fs [.error shown "template.parse" (Failure.io file kind).message] false
  | .ok source =>
    match Markup.Document.parse source with
    | .error e =>
      .reported fs [(Finding.error shown "template.parse" e.message).atLine e.line] false
    | .ok d =>
      match mode with
      | .check =>
        .reported fs (check entries shown d.nodes) (entries.any (·.migration.cancels))
      | .fix => fix process entries fs shown file d

end Template

namespace Run

/-- Treats files in order; the run can end in front of each. -/
def visitFiles (process : WritingProcess) (entries : List RegistryEntry) (mode : Mode) (root : Path)
    (done : Outcome) : List Path → Run Outcome
  | [] => return done
  | file :: files => do
    checkpoint
    let t := Template.treat process entries mode root (← get).fs file
    modify fun w => { w with fs := t.fs }
    cancelIf t.cancels
    let here : Outcome := ⟨t.findings, if t.fixed then [file] else []⟩
    visitFiles process entries mode root (done.append here) files

/-- Runs the migrations of an area that are for a version over files. -/
def migrate (s : Setup) (root : Path) (a : Area) (v : Version) (files : List Path)
    (mode : Mode) : Run Outcome :=
  match s.registry.applicable a v with
  | [] => return .empty
  | entries => visitFiles s.process entries mode root .empty files

end Run

end ExtensionAudit
