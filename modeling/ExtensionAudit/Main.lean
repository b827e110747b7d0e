import ExtensionAudit.Cli.Session
import ExtensionAudit.Files.Snapshot
/-
  The program. The paths that it may look at come from standard input, one on a
  line, as `find` lists them; everything else about the files is read and written
  here, and what there is to do is decided in `Cli.respond`. Programs are not
  started from here, so that sources are never checked with an interpreter.
-/

namespace ExtensionAudit.Cli

/-- The variables that the command line looks at. -/
def variableNames : List String :=
  [cacheDirVariable, "XDG_CACHE_HOME", "HOME"] ++ subjects.filterMap (·.pathVariable)

def currentEnvironment : IO Environment := do
  let found ← variableNames.filterMapM fun name => do
    return (← IO.getEnv name).map (name, ·)
  return ⟨fun name => found.lookup name, fun _ => .missing, ← IO.monoMsNow⟩

def inputLines : IO (List String) := do
  let input ← IO.getStdin
  let mut lines := []
  repeat
    let line ← input.getLine
    if line.isEmpty then break
    lines := String.ofList (line.toList.filter (· != '\n')) :: lines
  return lines.reverse

/-- What stands at a path: a file, or a directory where there is no file to read. -/
def entryAt (path : String) : IO Entry := do
  try return .file (← IO.FS.readBinFile path) false
  catch _ => return .directory

/-- The file system of this run, as far as it is listed. -/
def currentFileSystem : IO FileSystem := do
  let here := FileSystem.locationFrom [] (.ofString ((← IO.getEnv "PWD").getD "/"))
  let listing ← (← inputLines).mapM fun path => do
    return (FileSystem.locationFrom here (.ofString path), ← entryAt path)
  return .ofListing here listing

/-- Writes a file in one go, or removes one. -/
def carryOut (change : Location × Option ByteArray) : IO Unit := do
  let path := (FileSystem.pathOf change.1).toString
  match change.2 with
  | some content =>
    IO.FS.writeBinFile (path ++ ".new") content
    IO.FS.rename (path ++ ".new") path
  | none => IO.FS.removeFile path

end ExtensionAudit.Cli

open ExtensionAudit

/-- Answers the arguments of the command line. -/
def main (arguments : List String) : IO UInt32 := do
  let env ← Cli.currentEnvironment
  let fs ← match Cli.read env.setting arguments with
    | .ok _ => Cli.currentFileSystem
    | .error _ => pure ⟨[], []⟩
  let r := Cli.respond env fs arguments
  for change in FileSystem.changes fs r.fs do Cli.carryOut change
  for line in r.output do IO.println line
  for line in r.messages do IO.eprintln line
  return UInt32.ofNat r.exitCode
