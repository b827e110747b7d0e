import ExtensionAudit.Files.FileSystem
import ExtensionAudit.Json.Decode
/-
  The compatibility table: which PHP version a platform release needs at least.
  The published table is out of reach here, so that only its cached copy can
  answer.
-/

namespace ExtensionAudit

/-- A table of platform releases and PHP versions, ordered by release text, or the reason why
there is none. It may lie in a file. -/
structure CompatibilityTable where
  entries : FileSystem → Except Failure (List (String × String))

namespace CompatibilityTable

def static (entries : List (String × String)) : CompatibilityTable := ⟨fun _ => .ok entries⟩

def cacheFile : String := "php-version.json"

def address : String :=
  "https://raw.githubusercontent.com/FriendsOfOnlishop/onlishop-static-data/main/data/" ++ cacheFile

/-- The failure of a table that can neither be fetched nor read from its cache. -/
def unreachable : Failure :=
  .unavailable "compatibility table" ("error sending request for url (" ++ address ++ ")")

/-- The entries of a table as JSON. -/
def parse? (s : String) : Option (List (String × String)) :=
  (Json.parse? s).bind (Json.table? Json.string?)

/-- The table that is cached in a directory; one that cannot be understood is as good as
none. -/
def cached (dir : Path) : CompatibilityTable where
  entries fs :=
    let path := dir.child cacheFile
    match fs.readOptional path with
    | .error kind => .error (.io path kind)
    | .ok content =>
      match content.bind parse? with
      | some entries => .ok entries
      | none => .error unreachable

def releases (entries : List (String × String)) : List (Version × String) :=
  entries.filterMap fun (release, php) =>
    match Version.parse release with
    | .ok v => some (v, php)
    | .error _ => none

/-- The PHP version of the lowest release that the constraint admits; of equal releases the
first one counts. -/
def lowest? (entries : List (String × String)) (c : Constraint) : Option String :=
  let ordered := (releases entries).mergeSort fun a b => decide (a.1 ≤ b.1)
  (ordered.find? fun (v, _) => c.admits v).map (·.2)

def phpVersion (t : CompatibilityTable) (fs : FileSystem) (c : Constraint) :
    Except Failure String := do
  match lowest? (← t.entries fs) c with
  | some php => return php
  | none => throw (.noPhpVersion c.text)

end CompatibilityTable

end ExtensionAudit
