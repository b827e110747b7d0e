import ExtensionAudit.Text.Digit
import ExtensionAudit.Text.Search
/-
  Changelogs. A heading whose text begins with a version opens an entry, and the
  lines up to the next such heading are its body. Lines in front of the first
  heading belong to no entry.
-/

namespace ExtensionAudit

/-- What one version changed. -/
structure ChangelogEntry where
  version : String
  body : String
  deriving DecidableEq, Repr

structure Changelog where
  entries : List ChangelogEntry
  deriving DecidableEq, Repr

namespace Changelog

/-- Reads at most `n` further segments, each a dot and decimal digits. -/
def dottedDigits : Nat → Text → Text × Text
  | n + 1, '.' :: s =>
    match s.takeWhile isDecimal with
    | [] => ([], '.' :: s)
    | run =>
      let (more, rest) := dottedDigits n (s.dropWhile isDecimal)
      ('.' :: run ++ more, rest)
  | _, s => ([], s)

/-- Whether a character may stand in the suffix of a version. -/
def isSuffixChar (c : Char) : Bool := c.isAlphanum || c = '.'

def hyphenSuffix : Text → Text × Text
  | '-' :: s =>
    match s.takeWhile isSuffixChar with
    | [] => ([], '-' :: s)
    | run => ('-' :: run, s.dropWhile isSuffixChar)
  | s => ([], s)

/-- Drops the character `c` if the text begins with it. -/
def dropOne (c : Char) : Text → Text
  | a :: s => if a = c then s else a :: s
  | [] => []

/-- Reads the version that a text begins with: one to four segments and a suffix. -/
def leadingVersion? (s : Text) : Option (Text × Text) :=
  match s.takeWhile isDecimal with
  | [] => none
  | run =>
    let (more, rest) := dottedDigits 3 (s.dropWhile isDecimal)
    let (suffix, rest) := hyphenSuffix rest
    some (run ++ more ++ suffix, rest)

/-- The version that a heading line is about: one to six `#`, blanks, and the version, which
may stand in brackets and after a `v`, followed by a blank or by nothing. -/
def headingVersion? (line : Text) : Option Text :=
  let marks := line.takeWhile (· == '#')
  let rest := line.dropWhile (· == '#')
  let text := Text.trimStart rest
  if marks.isEmpty || 6 < marks.length || text.length == rest.length then none
  else
    match leadingVersion? (dropOne 'v' (dropOne '[' text)) with
    | none => none
    | some (version, rest) =>
      match dropOne ']' rest with
      | [] => some version
      | c :: _ => if isBlank c then some version else none

def bodyOf (lines : List Text) : String :=
  String.ofList (Text.trim (['\n'].intercalate lines))

/-- What is read of a changelog so far, the last entry and the last line first. The body of the
last entry is open: it stays empty until the lines read for it are put there. -/
structure Reading where
  entries : List ChangelogEntry
  body : List Text

namespace Reading

/-- Nothing is read. -/
def start : Reading := ⟨[], []⟩

/-- The entries, the last one with the lines read for it. -/
def close (r : Reading) : List ChangelogEntry :=
  match r.entries with
  | [] => []
  | last :: earlier => { last with body := bodyOf r.body.reverse } :: earlier

/-- Reads a line. A heading opens an entry; lines in front of the first heading are dropped. -/
def next (r : Reading) (line : Text) : Reading :=
  match headingVersion? (Text.trimEnd line) with
  | some version => ⟨⟨String.ofList version, ""⟩ :: r.close, []⟩
  | none => if r.entries.isEmpty then r else { r with body := line :: r.body }

end Reading

def entriesOf (lines : List Text) : List ChangelogEntry :=
  (lines.foldl Reading.next .start).close.reverse

def parse (content : String) : Changelog := ⟨entriesOf (Text.lines content.toList)⟩

/-- The body of the first entry of a version. -/
def get? (c : Changelog) (version : String) : Option String :=
  (c.entries.find? (·.version == version)).map (·.body)

def latest? (c : Changelog) : Option ChangelogEntry := c.entries.head?

end Changelog

end ExtensionAudit
