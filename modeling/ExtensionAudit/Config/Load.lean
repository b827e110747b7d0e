import ExtensionAudit.Config.Basic
import ExtensionAudit.Files.Write
import ExtensionAudit.Text.LowerCase
import ExtensionAudit.Yaml.Decode
/-
  Settings files: YAML files, told by their name, whose absence or emptiness
  stands for the default settings.
-/

namespace ExtensionAudit

open Yaml

def IgnoreRule.ofYaml (d : Document) (n : Node) : Reading IgnoreRule := do
  let [identifier, path, message] ← fields d ["identifier", "path", "message"] n | failure
  let optionalText := orElse none (optional d (text d))
  return ⟨← orElse "" (text d) identifier, ← optionalText path, ← optionalText message⟩

namespace ExtensionConfig

def ofYaml (d : Document) (n : Node) : Reading ExtensionConfig := do
  let [build, store, validation] ← fields d ["build", "store", "validation"] n | failure
  let constraint ← orElse none (fun n => do
    let [constraint] ← fields d ["onlishop_version_constraint"] n | failure
    orElse none (optional d (text d)) constraint) build
  let availabilities ← orElse none (fun n => do
    let [availabilities] ← fields d ["availabilities"] n | failure
    orElse none (optional d (list d (text d))) availabilities) store
  let ignores ← orElse [] (fun n => do
    let [ignores] ← fields d ["ignore"] n | failure
    orElse [] (list d (IgnoreRule.ofYaml d)) ignores) validation
  return ⟨constraint, availabilities, ignores⟩

end ExtensionConfig

namespace ProjectConfig

/-- Reads the name of an extension that is left out. -/
def excludedName (d : Document) (n : Node) : Reading String := do
  let [name] ← fields d ["name"] n | failure
  orElse "" (text d) name

def ofYaml (d : Document) (n : Node) : Reading ProjectConfig := do
  let [validation] ← fields d ["validation"] n | failure
  orElse .default (fun n => do
    let [excluded, ignores] ← fields d ["ignore_extensions", "ignore"] n | failure
    return ⟨← orElse [] (list d (excludedName d)) excluded,
      ← orElse [] (list d (IgnoreRule.ofYaml d)) ignores⟩) validation

end ProjectConfig

/-- A kind of settings: how they are read, and what stands for a missing file. -/
structure Settings (α : Type) where
  read : Document → Node → Reading α
  default : α

def extensionSettings : Settings ExtensionConfig := ⟨ExtensionConfig.ofYaml, .default⟩

def projectSettings : Settings ProjectConfig := ⟨ProjectConfig.ofYaml, .default⟩

namespace Settings

/-- The ending of a file name, in lower case. -/
def ending (p : Path) : String := lowerCase (String.ofList (p.extension?.getD []))

/-- Refuses files whose names do not end like those of YAML files. -/
def checkEnding (p : Path) : Except Failure Unit :=
  if ending p = "yaml" || ending p = "yml" then .ok ()
  else .error (.unsupportedFormat (ending p))

def parse {α : Type} (k : Settings α) (p : Path) (text : String) : Except Failure α :=
  match decode? k.read text with
  | some a => .ok a
  | none => .error (.configMalformed p)

def load {α : Type} (k : Settings α) (fs : FileSystem) (p : Path) : Except Failure α := do
  checkEnding p
  k.parse p (← (fs.readText p).mapError (.io p))

def loadOrDefault {α : Type} (k : Settings α) (fs : FileSystem) (p : Path) :
    Except Failure α := do
  checkEnding p
  match ← (fs.readOptional p).mapError (.io p) with
  | some text => if (trimmed text).isEmpty then return k.default else k.parse p text
  | none => return k.default

end Settings

def ExtensionConfig.load (fs : FileSystem) (root : Path) : Except Failure ExtensionConfig :=
  extensionSettings.loadOrDefault fs (root.child fileName)

def ProjectConfig.load (fs : FileSystem) (root : Path) : Except Failure ProjectConfig :=
  projectSettings.loadOrDefault fs (root.child fileName)

end ExtensionAudit
