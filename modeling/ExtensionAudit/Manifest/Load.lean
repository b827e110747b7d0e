import ExtensionAudit.Files.FileSystem
import ExtensionAudit.Manifest.Json
/-
  Manifests and lock files in directories.
-/

namespace ExtensionAudit

def Manifest.load (fs : FileSystem) (dir : Path) : Except Failure Manifest := do
  let path := dir.child fileName
  let content ← (fs.readText path).mapError (.manifestUnreadable fileName path)
  match parse? content with
  | some m => return m
  | none => throw (.manifestMalformed fileName path)

def LockFile.load (fs : FileSystem) (dir : Path) : Except Failure (Option LockFile) := do
  let path := dir.child fileName
  match ← (fs.readOptional path).mapError (.manifestUnreadable fileName path) with
  | none => return none
  | some content =>
    match parse? content with
    | some l => return some l
    | none => throw (.manifestMalformed fileName path)

end ExtensionAudit
