import ExtensionAudit.Extension.Basic
import ExtensionAudit.Json.Fault
/-
  The rules that a plugin has to keep: what its manifest must say, what its icon
  must be, and that the preview image of its theme is there. Bundles have no
  rules beyond what loading them asks for.
-/

namespace ExtensionAudit

namespace ManifestRule

def finding (identifier message : String) : Finding :=
  .error Manifest.fileName identifier message

/-- Adds a finding where a condition holds. -/
def addWhen (broken : Bool) (identifier message : String) (r : Report) : Report :=
  if broken then r.add (finding identifier message) else r

def isBlankText (s : String) : Bool := (trimmed s).isEmpty

def checkType (m : Manifest) (r : Report) : Report :=
  let wanted := ExtensionKind.plugin.manifestType
  if m.packageType.isEmpty then r.add (finding "metadata.type" "Key \x60type\x60 is required")
  else addWhen (m.packageType ≠ wanted) "metadata.type" ("The composer type must be " ++ wanted) r

def checkRequire (m : Manifest) (r : Report) : Report :=
  if m.require.isEmpty then
    r.add (finding "metadata.require" "Key \x60require\x60 is required")
  else addWhen (m.requirement? platformPackage).isNone "metadata.require"
    ("You need to require \"" ++ platformPackage ++ "\" package") r

/-- A table must have a text for a language. -/
def checkText (locale : String) (table : List (String × String)) (identifier field : String)
    (r : Report) : Report :=
  addWhen (lookup? locale table).isNone identifier
    ("extra." ++ field ++ " for language " ++ locale ++ " is required") r

/-- The texts of one language must be there. -/
def checkLocale (x : Extra) (r : Report) (locale : String) : Report :=
  let r := checkText locale x.label "metadata.label" "label" r
  let r := checkText locale x.description "metadata.description" "description" r
  let r := checkText locale x.manufacturerLink "metadata.manufacturer" "manufacturerLink" r
  checkText locale x.supportLink "metadata.support" "supportLink" r

/-- Reports what a manifest lacks for these languages. -/
def check (m : Manifest) (locales : List String) (r : Report) : Report :=
  let r := addWhen (isBlankText m.name) "metadata.name" "Key \x60name\x60 is required" r
  let r := checkType m r
  let r := addWhen (isBlankText m.description) "metadata.description"
    "Key \x60description\x60 is required" r
  let r := addWhen (m.license.all (·.isBlank)) "metadata.license"
    "Key \x60license\x60 is required" r
  let r := addWhen (isBlankText m.version) "metadata.version" "Key \x60version\x60 is required" r
  let r := addWhen m.authors.isEmpty "metadata.author" "Key \x60authors\x60 is required" r
  let r := checkRequire m r
  let r := locales.foldl (checkLocale m.extra) r
  addWhen m.autoload.isEmpty "metadata.autoload"
    "At least one of the properties psr-0 or psr-4 are required in the composer.json" r

end ManifestRule

namespace IconRule

/-- The bytes that a PNG file begins with. -/
def signature : List UInt8 := [0x89, 0x50, 0x4E, 0x47, 0x0D, 0x0A, 0x1A, 0x0A]

/-- The greatest size of an icon, in units of 1024 bytes. -/
def sizeLimit : Nat := 30

def isPng (content : ByteArray) : Bool := (content.extract 0 8).toList == signature

def check (fs : FileSystem) (root icon : Path) (r : Report) : Report :=
  let shown := Path.relativeTo root icon
  let the := "The extension icon " ++ shown
  match fs.readBytes icon with
  | .error _ => r.add (.error shown "metadata.icon" (the ++ " does not exist"))
  | .ok content =>
    let size := content.size
    let r := if isPng content then r
      else r.add (.error shown "metadata.icon.format" (the ++ " must be a PNG file"))
    if size ≤ sizeLimit * 1024 then r
    else r.add (.error shown "metadata.icon.size"
      (the ++ " is " ++ toString ((size + 1023) / 1024) ++ " KiB, the maximum is " ++
        toString sizeLimit ++ " KiB"))

/-- What is found where no rule leaves anything out. -/
def findings (fs : FileSystem) (root icon : Path) : List Finding :=
  (check fs root icon (.withIgnores [])).findings

end IconRule

namespace ThemeRule

/-- The file that describes a theme, relative to the extension. -/
def fileName : String := "src/Resources/theme.json"

/-- Reports what is wrong with the theme of an extension; a missing theme is fine. -/
def check (fs : FileSystem) (root : Path) (r : Report) : Report :=
  match fs.readText (root.child fileName) with
  | .error _ => r
  | .ok content =>
    match Json.parseStrict? content with
    | none =>
      r.add (.error fileName "theme.json"
        ("Cannot decode theme.json: " ++ Json.explanation content))
    | some theme =>
      match (Json.member? "previewMedia" theme).bind Json.string? with
      | none => r
      | some preview =>
        if fs.isFile (((root.child "src").child "Resources").child preview) then r
        else r.add (.error fileName "theme.preview"
          ("Theme preview image file " ++ preview ++ " does not exist"))

/-- What is found where no rule leaves anything out. -/
def findings (fs : FileSystem) (root : Path) : List Finding :=
  (check fs root (.withIgnores [])).findings

end ThemeRule

namespace Extension

def validate (fs : FileSystem) (e : Extension) (r : Report) : Report :=
  match e with
  | .bundle _ _ => r
  | .plugin p =>
    let r := ManifestRule.check p.manifest (e.requiredLocales?.getD []) r
    let r := e.iconPath?.elim r fun icon => IconRule.check fs p.path icon r
    ThemeRule.check fs p.path r

/-- What an extension's own rules find where no rule leaves anything out. -/
def findings (fs : FileSystem) (e : Extension) : List Finding :=
  (e.validate fs (.withIgnores [])).findings

end Extension

end ExtensionAudit
