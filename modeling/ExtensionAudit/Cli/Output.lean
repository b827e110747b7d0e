import ExtensionAudit.Cli.Table
import ExtensionAudit.Engine.Scope
import ExtensionAudit.Json.Print
/-
  What is shown of findings, changed files, extensions and scopes: lines of text,
  or JSON.
-/

namespace ExtensionAudit

/-! ## JSON -/

def Finding.toJson (f : Finding) : Json.Value :=
  .ofMembers [("path", .ofString f.path), ("line", .ofOption .ofNat f.line),
    ("identifier", .ofString f.identifier), ("message", .ofString f.message),
    ("severity", .ofString f.severity.name)]

def textsToJson (texts : List (String × String)) : Json.Value :=
  .ofMembers (texts.map fun (language, text) => (language, .ofString text))

/-- What is shown of an extension and the version of its newest changelog entry, as JSON. -/
def ExtensionSummary.toJson (s : ExtensionSummary) (latest : Option String) : Json.Value :=
  .ofMembers [("kind", .ofString s.kind.label), ("composer_name", .ofString s.packageName),
    ("display_name", .ofString s.displayName), ("label", textsToJson s.label),
    ("description", textsToJson s.description), ("version", .ofString s.version),
    ("license", .ofOption .ofString s.license),
    ("version_constraint", .ofOption .ofString s.constraint),
    ("root_path", .ofString s.path.toString),
    ("latest_changelog", .ofOption .ofString latest)]

namespace Cli

/-! ## Lines -/

def tableLines (t : Table) : List String := t.lines.map String.ofList

def messageWidth : Nat := 80

def findingRow (f : Finding) : List Text :=
  [f.path.toList, ((f.line.map toString).getD "").toList, f.identifier.toList,
    Table.wrappedCell messageWidth f.message.toList, f.severity.name.toList]

def bySeverity (fs : List Finding) : List Finding :=
  fs.mergeSort fun f g => decide (g.severity.rank ≤ f.severity.rank)

def findingsTable (fs : List Finding) : List String :=
  tableLines ⟨["path", "line", "identifier", "message", "severity"].map String.toList,
    (bySeverity fs).map findingRow⟩

def countOf (s : Severity) (fs : List Finding) : Nat := fs.countP (·.severity = s)

def findingsLines (fs : List Finding) (json : Bool) : List String :=
  if json then [(Json.Value.list (fs.map Finding.toJson)).print]
  else if fs.isEmpty then ["OK No problems found."]
  else findingsTable fs ++
    ["", "=> " ++ toString (countOf .error fs) ++ " error(s), " ++
      toString (countOf .warning fs) ++ " warning(s)"]

/-- A path below a directory, or the path itself. -/
def below (root p : Path) : String := ((Path.strip? root p).getD p).toString

def fixedLines (root : Path) (files : List Path) : List String :=
  if files.isEmpty then ["OK Nothing to fix."]
  else files.map (fun p => "   + " ++ below root p) ++
    ["OK Fixed " ++ toString files.length ++ " file(s)."]

def valueLine (caption : String) (value : Option String) : List String :=
  (value.map (caption ++ ·)).toList

def summaryLines (s : ExtensionSummary) (latest : Option String) : List String :=
  [s.displayName, "", "Type:        " ++ s.kind.manifestType,
    "Package:     " ++ s.packageName] ++
  valueLine "Label:       " (lookup? localeEnglish s.label) ++
  ["Version:     " ++ s.version, "License:     " ++ s.license.getD "-",
    "Requires:    " ++ s.constraint.getD "-"] ++
  valueLine "Description: " (lookup? localeEnglish s.description) ++
  valueLine "Changelog:   " latest

def scopeLines (s : Scope) : List String :=
  let config :=
    if s.hasProjectConfig then "Found config: Yes"
    else "Could not find a " ++ ProjectConfig.fileName ++ ", using fallback config"
  let row (source : Source) : List Text :=
    [source.name.toList, (below s.root source.path).toList]
  let failures :=
    if s.loadFailures.isEmpty then []
    else ["", "Extensions that could not be loaded:"] ++ findingsTable s.loadFailures
  [config, "Detected following Onlishop version: " ++ s.constraint.text,
    "Following extensions/bundles has been detected"] ++
  tableLines ⟨["name", "path"].map String.toList, s.sources.map row⟩ ++ failures

end Cli

end ExtensionAudit
