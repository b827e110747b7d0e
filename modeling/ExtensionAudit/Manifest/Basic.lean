import ExtensionAudit.Json.Decode
import ExtensionAudit.Text.Search
/-
  Manifests (`composer.json`). One type serves projects, bundles and plugins;
  what a manifest does not say is empty.
-/

namespace ExtensionAudit

/-- The licence of a package: one identifier or a choice of several. -/
inductive License where
  | single (name : String)
  | choice (names : List String)
  deriving DecidableEq, Repr

namespace License

def display : License → String
  | .single name => name
  | .choice names => " OR ".intercalate names

/-- Whether the licence says nothing: every name is blank. -/
def isBlank : License → Bool
  | .single name => (trimmed name).isEmpty
  | .choice names => names.all fun name => (trimmed name).isEmpty

end License

structure Author where
  name : String
  email : Option String
  homepage : Option String
  deriving DecidableEq, Repr

/-- The directories of a namespace: one, or a list. -/
inductive Directories where
  | one (path : String)
  | many (paths : List String)
  deriving DecidableEq, Repr

def Directories.toList : Directories → List String
  | .one path => [path]
  | .many paths => paths

/-- Which directories hold the classes of which namespaces, by either standard. -/
structure Autoload where
  psr0 : List (String × Directories)
  psr4 : List (String × Directories)
  deriving DecidableEq, Repr

namespace Autoload

/-- No directories. -/
def empty : Autoload := ⟨[], []⟩

/-- Whether no namespace is given. -/
def isEmpty (a : Autoload) : Bool := a.psr0.isEmpty && a.psr4.isEmpty

def psr4Directories (a : Autoload) : List String := a.psr4.flatMap (·.2.toList)

end Autoload

/-- The part of a manifest that is about the shop. -/
structure Extra where
  bundleName : Option String
  pluginClass : Option String
  label : List (String × String)
  description : List (String × String)
  manufacturerLink : List (String × String)
  supportLink : List (String × String)
  pluginIcon : Option String
  /-- The names of the bundles inside a project, by their directories. -/
  bundles : List (String × String)
  deriving DecidableEq, Repr

/-- Nothing about the shop. -/
def Extra.empty : Extra := ⟨none, none, [], [], [], [], none, []⟩

structure Manifest where
  name : String
  description : String
  version : String
  packageType : String
  license : Option License
  authors : List Author
  keywords : List String
  require : List (String × String)
  autoload : Autoload
  extra : Extra
  deriving DecidableEq, Repr

def lookup? {α : Type} (key : String) (table : List (String × α)) : Option α :=
  (table.find? (·.1 == key)).map (·.2)

namespace Manifest

def fileName : String := "composer.json"

def requirement? (m : Manifest) (package : String) : Option String := lookup? package m.require

/-- The last segment of the plugin class, which names a plugin. -/
def pluginName? (m : Manifest) : Option String := do
  let className ← m.extra.pluginClass
  let segments := Text.splitAt (· == '\\') className.toList
  let name := Text.trim (segments.getLast?.getD [])
  if name.isEmpty then none else some (String.ofList name)

/-- The licence on one line, unless it says nothing. -/
def licenseText? (m : Manifest) : Option String :=
  (m.license.filter (! ·.isBlank)).map License.display

end Manifest

structure LockedPackage where
  name : String
  version : String
  deriving DecidableEq, Repr

structure LockFile where
  packages : List LockedPackage
  packagesDev : List LockedPackage
  deriving DecidableEq, Repr

namespace LockFile

def fileName : String := "composer.lock"

/-- The first package of a name; packages for production come first. -/
def find? (l : LockFile) (name : String) : Option LockedPackage :=
  (l.packages ++ l.packagesDev).find? (·.name == name)

end LockFile

end ExtensionAudit
