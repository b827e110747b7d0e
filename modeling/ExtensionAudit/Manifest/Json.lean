import ExtensionAudit.Manifest.Basic
/-
  Manifests and lock files as JSON.
-/

namespace ExtensionAudit

open Json

namespace License

/-- A licence is a text or a list of texts. -/
def ofJson? (v : Value) : Option License :=
  match v with
  | .list items => (items.mapM string?).map .choice
  | v => (string? v).map .single

end License

namespace Directories

/-- The directories of a namespace are a text or a list of texts. -/
def ofJson? (v : Value) : Option Directories :=
  match v with
  | .list items => (items.mapM string?).map .many
  | v => (string? v).map .one

end Directories

def Author.ofJson? (v : Value) : Option Author := do
  let [name, email, homepage] ← fields? ["name", "email", "homepage"] v | none
  return ⟨← text? name, ← optionalText? email, ← optionalText? homepage⟩

def Autoload.ofJson? (v : Value) : Option Autoload := do
  let [psr0, psr4] ← fields? ["psr-0", "psr-4"] v | none
  let directories := orElse [] (table? Directories.ofJson?)
  return ⟨← directories psr0, ← directories psr4⟩

def bundleName? (v : Value) : Option String := do
  let [name] ← fields? ["name"] v | none
  text? name

/-- The fields of the shop's part of a manifest. -/
def Extra.fieldNames : List String :=
  ["onlishop-bundle-name", "onlishop-plugin-class", "label", "description", "manufacturerLink",
    "supportLink", "plugin-icon", "onlishop-bundles"]

/-- Reads the shop's part of a manifest. -/
def Extra.ofJson? (v : Value) : Option Extra := do
  let [bundleName, pluginClass, label, description, manufacturer, support, icon, bundles] ←
    fields? Extra.fieldNames v | none
  return ⟨← optionalText? bundleName, ← optionalText? pluginClass, ← texts? label,
    ← texts? description, ← texts? manufacturer, ← texts? support, ← optionalText? icon,
    ← orElse [] (table? bundleName?) bundles⟩

namespace Manifest

def fieldNames : List String :=
  ["name", "description", "version", "type", "license", "authors", "keywords", "require",
    "autoload", "extra"]

def ofJson? (v : Value) : Option Manifest := do
  let [name, description, version, packageType, license, authors, keywords, require, autoload,
    extra] ← fields? fieldNames v | none
  return ⟨← text? name, ← text? description, ← text? version, ← text? packageType,
    ← orElse none (optional? License.ofJson?) license,
    ← orElse [] (list? Author.ofJson?) authors, ← orElse [] (list? string?) keywords,
    ← texts? require, ← orElse .empty Autoload.ofJson? autoload,
    ← orElse .empty Extra.ofJson? extra⟩

def parse? (s : String) : Option Manifest := (Json.parse? s).bind ofJson?

end Manifest

def LockedPackage.ofJson? (v : Value) : Option LockedPackage := do
  let [name, version] ← fields? ["name", "version"] v | none
  return ⟨← text? name, ← text? version⟩

namespace LockFile

def ofJson? (v : Value) : Option LockFile := do
  let [packages, packagesDev] ← fields? ["packages", "packages-dev"] v | none
  let list := orElse [] (list? LockedPackage.ofJson?)
  return ⟨← list packages, ← list packagesDev⟩

def parse? (s : String) : Option LockFile := (Json.parse? s).bind ofJson?

end LockFile

end ExtensionAudit
