import ExtensionAudit.Report
import ExtensionAudit.Text.Blank
/-
  The settings of extensions and of projects.
-/

namespace ExtensionAudit

structure ExtensionConfig where
  /-- The constraint that stands in for the manifest's, if there is one. -/
  constraint : Option String
  /-- The stores the extension is listed in; none stands for all of them. -/
  availabilities : Option (List String)
  ignores : List IgnoreRule
  deriving DecidableEq, Repr

namespace ExtensionConfig

def fileName : String := ".onlishop-extension.yml"

/-- The settings of an extension without a settings file. -/
def default : ExtensionConfig := ⟨none, none, []⟩

def germanStore : String := "German"

def isInGermanStore (c : ExtensionConfig) : Bool :=
  match c.availabilities with
  | none => true
  | some stores => stores.contains germanStore

/-- The constraint of the settings without blanks around it, unless it is blank. -/
def constraintOverride? (c : ExtensionConfig) : Option String :=
  (c.constraint.map trimmed).filter (! ·.isEmpty)

end ExtensionConfig

structure ProjectConfig where
  /-- The names of the extensions that are left out. -/
  excluded : List String
  ignores : List IgnoreRule
  deriving DecidableEq, Repr

namespace ProjectConfig

def fileName : String := ".onlishop-project.yml"

/-- The settings of a project without a settings file. -/
def default : ProjectConfig := ⟨[], []⟩

end ProjectConfig

end ExtensionAudit
