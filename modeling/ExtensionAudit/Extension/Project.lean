import ExtensionAudit.Cancellation
import ExtensionAudit.Extension.Basic
import ExtensionAudit.Files.Walk
/-
  The extensions of a project: directories at a fixed depth below a few places
  that hold a manifest. Packages of another type are passed over, and a package
  that cannot be loaded is noted or ends the search, as the policy says.
-/

namespace ExtensionAudit

/-- What happens at an extension that cannot be loaded. -/
inductive DiscoveryPolicy where
  | skip
  | abort
  deriving DecidableEq, Repr

/-- An extension that could not be loaded, and why. -/
structure DiscoveryFailure where
  path : Path
  failure : Failure
  deriving DecidableEq, Repr

/-- What a search found, in its order. -/
structure Discovery where
  extensions : List Extension
  failures : List DiscoveryFailure
  deriving DecidableEq, Repr

namespace Discovery

/-- Nothing found. -/
def empty : Discovery := ⟨[], []⟩

/-- Where extensions are, relative to a project, and how many directories further down. -/
def places : List (String × Nat) :=
  [("custom/plugins", 1), ("custom/static-plugins", 1), ("vendor", 2)]

/-- The directories below all of these, in order. -/
def subdirectoriesOfAll (fs : FileSystem) : List Path → Except Failure (List Path)
  | [] => .ok []
  | dir :: dirs => do
    let found ← (fs.subdirectories dir).mapError (.io dir)
    return found ++ (← subdirectoriesOfAll fs dirs)

/-- The directories `depth` steps below these. -/
def descend (fs : FileSystem) : Nat → List Path → Except Failure (List Path)
  | 0, dirs => .ok dirs
  | depth + 1, dirs => do descend fs depth (← subdirectoriesOfAll fs dirs)

/-- The directories exactly `depth` steps below `base`, in path order. -/
def candidates (fs : FileSystem) (base : Path) (depth : Nat) : Except Failure (List Path) :=
  descend fs depth [base]

def hasManifest (fs : FileSystem) (dir : Path) : Bool := fs.isFile (dir.child Manifest.fileName)

/-- Takes in the outcome of loading a directory. -/
def take (policy : DiscoveryPolicy) (d : Discovery) (dir : Path) :
    Except Failure Extension → Except Failure Discovery
  | .ok e => .ok { d with extensions := d.extensions ++ [e] }
  | .error (.unsupportedType _ _) => .ok d
  | .error failure =>
    match policy with
    | .abort => .error failure
    | .skip => .ok { d with failures := d.failures ++ [⟨dir, failure⟩] }

/-- Looks at directories in order; the run can end in front of each. -/
def visit (fs : FileSystem) (policy : DiscoveryPolicy) (d : Discovery) :
    List Path → Cancellable Discovery
  | [] => return d
  | dir :: dirs => do
    checkpoint
    if hasManifest fs dir then
      let d ← liftExcept (take policy d dir (Extension.discover fs dir))
      visit fs policy d dirs
    else visit fs policy d dirs

/-- Looks at the candidates of places in order. -/
def visitPlaces (fs : FileSystem) (policy : DiscoveryPolicy) (root : Path) (d : Discovery) :
    List (String × Nat) → Cancellable Discovery
  | [] => return d
  | (place, depth) :: rest => do
    let dirs ← liftExcept (candidates fs (root.child place) depth)
    let d ← visit fs policy d dirs
    visitPlaces fs policy root d rest

end Discovery

def findExtensions (fs : FileSystem) (root : Path) (policy : DiscoveryPolicy) :
    Cancellable Discovery :=
  Discovery.visitPlaces fs policy root .empty Discovery.places

end ExtensionAudit
