import ExtensionAudit.Extension.Project
import ExtensionAudit.Migration.Registry
import ExtensionAudit.Platform.Resolution
/-
  The scope of a run: which directories are checked, under which constraint, and
  what could not be loaded. A project's scope holds the extensions outside of
  `vendor` that are not left out, and the bundles that its manifest declares.
-/

namespace ExtensionAudit

/-- An extension or bundle that takes part in a run. -/
structure Source where
  name : String
  path : Path
  deriving DecidableEq, Repr

/-- What a run looks at. -/
structure Scope where
  root : Path
  sources : List Source
  sourceDirs : List Path
  adminDirs : List Path
  storefrontDirs : List Path
  constraint : Constraint
  ignores : List IgnoreRule
  loadFailures : List Finding
  hasProjectConfig : Bool
  deriving DecidableEq, Repr

namespace Scope

def loadFailure (root path : Path) (failure : Failure) : Finding :=
  let shown := Path.relativeTo root path
  .error shown "extension.load"
    ("Could not load extension " ++ shown ++ ": " ++ failure.message)

/-- The version that migrations are chosen by: the lowest one that the constraint admits. -/
def platformVersion (s : Scope) : Version := s.constraint.lowerBound

def templateDirs (s : Scope) : Area → List Path
  | .administration => s.adminDirs
  | .storefront => s.storefrontDirs

def addExtension (fs : FileSystem) (s : Scope) (name : String) (e : Extension) : Scope :=
  { s with
    sources := s.sources ++ [⟨name, e.path⟩]
    sourceDirs := s.sourceDirs ++ e.sourceDirs
    adminDirs := s.adminDirs ++ e.templateDirs fs Area.administration.directory
    storefrontDirs := s.storefrontDirs ++ e.templateDirs fs Area.storefront.directory }

/-- A path without links, or the path itself where it leads nowhere. -/
def canonicalOr (fs : FileSystem) (p : Path) : Path := (fs.canonical p).toOption.getD p

/-- Takes in a discovered extension, unless it is installed below `vendor` or left out. -/
def takeExtension (fs : FileSystem) (excluded : List String) (s : Scope) (e : Extension) :
    Scope :=
  match e.name with
  | .error failure =>
    { s with loadFailures := s.loadFailures ++ [loadFailure s.root e.path failure] }
  | .ok name =>
    if (canonicalOr fs e.path).isBelow (s.root.child "vendor") then s
    else if excluded.contains name then s
    else s.addExtension fs name e

/-- Takes in a bundle that the project's manifest declares, unless it is left out. A bundle
without a name goes by its directory. -/
def takeBundle (fs : FileSystem) (excluded : List String) (s : Scope)
    (bundle : String × String) : Scope :=
  let (relative, given) := bundle
  let name := if given.isEmpty then relative else given
  if excluded.contains name then s
  else
    let dir := s.root.child relative
    let app := (dir.child "Resources").child "app"
    let existing (a : Area) := [app.child a.directory].filter fs.isDirectory
    { s with
      sources := s.sources ++ [⟨name, dir⟩]
      sourceDirs := s.sourceDirs ++ [dir]
      adminDirs := s.adminDirs ++ existing .administration
      storefrontDirs := s.storefrontDirs ++ existing .storefront }

/-- The scope of a project before its extensions are taken in. -/
def start (root : Path) (constraint : Constraint) (ignores : List IgnoreRule)
    (hasProjectConfig : Bool) (failures : List DiscoveryFailure) : Scope where
  root := root
  sources := []
  sourceDirs := []
  adminDirs := []
  storefrontDirs := []
  constraint := constraint
  ignores := ignores
  loadFailures := failures.map fun f => loadFailure root f.path f.failure
  hasProjectConfig := hasProjectConfig

def ofProject (fs : FileSystem) (root : Path) (policy : DiscoveryPolicy) :
    Cancellable Scope := do
  let root := canonicalOr fs root
  let constraint ← liftExcept (resolvePlatform fs root)
  let hasConfig := fs.isFile (root.child ProjectConfig.fileName)
  let config ← liftExcept (ProjectConfig.load fs root)
  let found ← findExtensions fs root policy
  let manifest ← liftExcept (Manifest.load fs root)
  let scope := start root constraint config.ignores hasConfig found.failures
  let scope := found.extensions.foldl (takeExtension fs config.excluded) scope
  return manifest.extra.bundles.foldl (takeBundle fs config.excluded) scope

def ofExtension (fs : FileSystem) (e : Extension) : Except Failure Scope := do
  let constraint ← e.constraint
  let name ← e.name
  return (start e.path constraint e.config.ignores false []).addExtension fs name e

end Scope

end ExtensionAudit
