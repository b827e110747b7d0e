import ExtensionAudit.Changelog
import ExtensionAudit.Config.Load
import ExtensionAudit.Manifest.Load
/-
  Extensions: directories whose manifest has one of two types. A bundle has its
  name from the manifest when it is loaded; a plugin has one only when its
  manifest names a class.
-/

namespace ExtensionAudit

inductive ExtensionKind where
  | bundle
  | plugin
  deriving DecidableEq, Repr

namespace ExtensionKind

def manifestType : ExtensionKind → String
  | .bundle => "onlishop-bundle"
  | .plugin => "onlishop-platform-plugin"

def label : ExtensionKind → String
  | .bundle => "bundle"
  | .plugin => "platform-plugin"

def ofManifestType? (t : String) : Option ExtensionKind :=
  [bundle, plugin].find? fun k => k.manifestType = t

end ExtensionKind

/-- The main language of texts about an extension. -/
def localeEnglish : String := "en-GB"

/-- The language that the German store needs besides. -/
def localeGerman : String := "de-DE"

/-- What every extension has: its directory, its manifest and its settings. -/
structure Package where
  path : Path
  manifest : Manifest
  config : ExtensionConfig
  deriving DecidableEq, Repr

namespace Package

/-- The directories of the classes: the PSR-4 directories without slashes at their ends. -/
def sourceDirs (p : Package) : List Path :=
  p.manifest.autoload.psr4Directories.map fun dir =>
    p.path.join ⟨(dir.toList.reverse.dropWhile (· == '/')).reverse⟩

/-- The platform constraint: that of the settings, or the one the manifest requires. -/
def constraint (p : Package) : Except Failure Constraint :=
  match p.config.constraintOverride? with
  | some text => Constraint.read text
  | none =>
    match p.manifest.requirement? platformPackage with
    | some text => Constraint.read text
    | none => .error (.missingDependency platformPackage)

end Package

inductive Extension where
  | bundle (package : Package) (name : String)
  | plugin (package : Package)
  deriving DecidableEq, Repr

structure ExtensionSummary where
  kind : ExtensionKind
  packageName : String
  displayName : String
  label : List (String × String)
  description : List (String × String)
  version : String
  license : Option String
  constraint : Option String
  path : Path
  deriving DecidableEq, Repr

namespace Extension

def package : Extension → Package
  | .bundle p _ => p
  | .plugin p => p

def kind : Extension → ExtensionKind
  | .bundle _ _ => .bundle
  | .plugin _ => .plugin

def path (e : Extension) : Path := e.package.path

def manifest (e : Extension) : Manifest := e.package.manifest

def config (e : Extension) : ExtensionConfig := e.package.config

def name : Extension → Except Failure String
  | .bundle _ name => .ok name
  | .plugin p =>
    match p.manifest.pluginName? with
    | some name => .ok name
    | none => .error (.missingPluginClass p.path)

def constraint (e : Extension) : Except Failure Constraint := e.package.constraint

def version (e : Extension) : Except Failure Version := Version.read e.manifest.version

/-- The licence on one line, unless it says nothing. -/
def license (e : Extension) : Option String := e.manifest.licenseText?

/-- The name shown for the extension: a plugin has a label before it has a name. -/
def displayName : Extension → String
  | .bundle _ name => name
  | .plugin p =>
    ((lookup? localeEnglish p.manifest.extra.label).or p.manifest.pluginName?).getD
      p.manifest.name

def summary (e : Extension) : ExtensionSummary where
  kind := e.kind
  packageName := e.manifest.name
  displayName := e.displayName
  label := e.manifest.extra.label
  description := e.manifest.extra.description
  version := e.manifest.version
  license := e.license
  constraint := e.constraint.toOption.map (·.text)
  path := e.path

/-! ## Loading -/

/-- The name that a manifest gives a bundle, without blanks around it. -/
def bundleName? (m : Manifest) : Option String :=
  (m.extra.bundleName.map trimmed).filter (! ·.isEmpty)

def bundleOf (fs : FileSystem) (path : Path) (m : Manifest) : Except Failure Extension := do
  match bundleName? m with
  | none => throw (.missingBundleName path)
  | some name => return .bundle ⟨path, m, ← ExtensionConfig.load fs path⟩ name

def pluginOf (fs : FileSystem) (path : Path) (m : Manifest) : Except Failure Extension := do
  return .plugin ⟨path, m, ← ExtensionConfig.load fs path⟩

/-- The extension of a kind in a directory with the given manifest. -/
def ofManifest (fs : FileSystem) (path : Path) (m : Manifest) :
    ExtensionKind → Except Failure Extension
  | .bundle => bundleOf fs path m
  | .plugin => pluginOf fs path m

def discover (fs : FileSystem) (path : Path) : Except Failure Extension := do
  let m ← Manifest.load fs path
  match ExtensionKind.ofManifestType? m.packageType with
  | some kind => ofManifest fs path m kind
  | none => throw (.unsupportedType path m.packageType)

def load (fs : FileSystem) (kind : ExtensionKind) (path : Path) : Except Failure Extension := do
  let m ← Manifest.load fs path
  if m.packageType = kind.manifestType then ofManifest fs path m kind
  else throw (.unsupportedType path m.packageType)

/-! ## Directories -/

def rootSourceDir (e : Extension) : Path := e.path.child "src"

/-- The directories of the classes. -/
def sourceDirs (e : Extension) : List Path := e.package.sourceDirs

def resourceDirs (e : Extension) : List Path := e.sourceDirs.map (·.child "Resources")

/-- The directories of an area's templates, as far as they are there. -/
def templateDirs (fs : FileSystem) (e : Extension) (a : String) : List Path :=
  (e.resourceDirs.map fun dir => (dir.child "app").child a).filter fs.isDirectory

def defaultIcon : String := "src/Resources/config/plugin.png"

def iconPath? : Extension → Option Path
  | .bundle _ _ => none
  | .plugin p =>
    let named := p.manifest.extra.pluginIcon.filter fun icon => !(trimmed icon).isEmpty
    some (p.path.child (named.getD defaultIcon))

/-- The languages that a plugin needs texts in. -/
def requiredLocales? : Extension → Option (List String)
  | .bundle _ _ => none
  | .plugin p =>
    some (if p.config.isInGermanStore then [localeGerman, localeEnglish] else [localeEnglish])

end Extension

/-! ## Changelogs -/

structure Changelogs where
  english : Changelog
  german : Changelog
  deriving DecidableEq, Repr

namespace Changelogs

def read (fs : FileSystem) (p : Path) : Except Failure (Option Changelog) :=
  ((fs.readOptional p).mapError (.io p)).map (·.map Changelog.parse)

/-- Loads the changelogs of an extension. The English one may have a file name without a
language. -/
def load (fs : FileSystem) (root : Path) : Except Failure Changelogs := do
  let english ← match ← read fs (root.child "CHANGELOG_en-GB.md") with
    | some c => pure (some c)
    | none => read fs (root.child "CHANGELOG.md")
  let german ← read fs (root.child "CHANGELOG_de-DE.md")
  return ⟨english.getD ⟨[]⟩, german.getD ⟨[]⟩⟩

end Changelogs

end ExtensionAudit
