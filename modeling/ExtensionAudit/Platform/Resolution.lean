import ExtensionAudit.Manifest.Load
import ExtensionAudit.Platform.Kernel
import ExtensionAudit.Text.Quoted
/-
  The platform constraint of a project. Strategies are tried in order, and each
  settles the question, leaves it to the next one, or fails: the requirement that
  the manifest declares, the release that the lock file pins, and the version
  constant of the kernel.
-/

namespace ExtensionAudit

/-- What is known of a project before its files are searched. -/
structure ResolutionContext where
  root : Path
  manifest : Manifest
  lock : Option LockFile

/-- A way to find the platform constraint. -/
inductive Strategy where
  | declaredRequirement
  | lockedRelease
  | kernelSource
  deriving DecidableEq, Repr

namespace Strategy

def name : Strategy → String
  | .declaredRequirement => "declared-requirement"
  | .lockedRelease => "locked-release"
  | .kernelSource => "kernel-source"

/-- The text of the constraint that admits a minor series. -/
def minorRangeText (major minor : Nat) : String :=
  "~" ++ toString major ++ "." ++ toString minor ++ ".0"

def minorRange (root : Path) (major minor : Nat) : Except Failure Constraint :=
  let text := minorRangeText major minor
  (Constraint.parse text).mapError (.unusableRelease root text)

def declared (c : ResolutionContext) : Except Failure (Option Constraint) :=
  match c.manifest.requirement? platformPackage with
  | none => .ok none
  | some text =>
    match Constraint.parse text with
    | .ok constraint => .ok (some constraint)
    | .error fault => .error (.invalidRequirement c.root (Constraint.textOf text) fault)

/-- The minor series of the pinned release; a pinned branch settles nothing. -/
def locked (c : ResolutionContext) : Except Failure (Option Constraint) :=
  match c.lock.bind (·.find? platformPackage) with
  | none => .ok none
  | some package =>
    if Version.isRelease package.version then do
      let v ← Version.read package.version
      return some (← minorRange c.root v.major v.minor)
    else .ok none

/-- Where the kernel may be, relative to a project. -/
def kernelPaths : List String := ["vendor/onlishop/core/Kernel.php", "src/Core/Kernel.php"]

/-- The minor series of the first of these kernel files that names a version. -/
def kernelAmong (fs : FileSystem) (c : ResolutionContext) :
    List String → Except Failure (Option Constraint)
  | [] => .ok none
  | relative :: rest =>
    let path := c.root.child relative
    match fs.readOptional path with
    | .error kind => .error (.io path kind)
    | .ok source =>
      match source.bind Kernel.version? with
      | some (major, minor) => (minorRange c.root major minor).map some
      | none => kernelAmong fs c rest

def resolve (fs : FileSystem) (c : ResolutionContext) :
    Strategy → Except Failure (Option Constraint)
  | .declaredRequirement => declared c
  | .lockedRelease => locked c
  | .kernelSource => kernelAmong fs c kernelPaths

def chain : List Strategy := [.declaredRequirement, .lockedRelease, .kernelSource]

def firstOf (fs : FileSystem) (c : ResolutionContext) : List Strategy → Except Failure Constraint
  | [] => .error (.missingDependency platformPackage)
  | s :: rest =>
    match s.resolve fs c with
    | .error e => .error e
    | .ok (some constraint) => .ok constraint
    | .ok none => firstOf fs c rest

def summary (strategies : List Strategy) : String :=
  "[" ++ ", ".intercalate (strategies.map fun s => quoted s.name) ++ "]"

end Strategy

/-- The platform constraint of the project in a directory, by the given strategies. -/
def resolveWith (fs : FileSystem) (strategies : List Strategy) (root : Path) :
    Except Failure Constraint := do
  let manifest ← Manifest.load fs root
  let lock ← LockFile.load fs root
  Strategy.firstOf fs ⟨root, manifest, lock⟩ strategies

def resolvePlatform (fs : FileSystem) (root : Path) : Except Failure Constraint :=
  resolveWith fs Strategy.chain root

end ExtensionAudit
