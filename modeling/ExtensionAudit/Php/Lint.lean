import ExtensionAudit.Files.Walk
import ExtensionAudit.Text.Digit
import ExtensionAudit.Text.Lossy
/-
  The syntax check of PHP sources. A linter answers for a directory with the
  errors in its files. The one that runs an interpreter looks for it by name and
  reads the errors out of what it prints.
-/

namespace ExtensionAudit

/-- A syntax error in a file, whose path is relative to the directory that was checked. -/
structure SourceError where
  file : String
  line : Option Nat
  message : String
  deriving DecidableEq, Repr

/-- A syntax check for the sources of a directory and a PHP version. `cancels` says that using
it ends the run at the next point where the run can end. -/
structure Linter where
  check : FileSystem → String → Path → Except Failure (List SourceError)
  cancels : Bool

namespace LintOutput

/-- Drops everything up to the end of the line. -/
def nextLine : Text → Text
  | [] => []
  | c :: s => if c = '\n' then s else nextLine s

/-- Splits in front of the first `mark` that is followed by `follows` and comes behind at least
one character. -/
def splitBefore? (mark : Text) (follows : Text → Bool) : Text → Option (Text × Text)
  | [] => none
  | c :: s =>
    match Text.strip? mark s with
    | some rest =>
      if follows rest then some ([c], rest)
      else (splitBefore? mark follows s).map fun (front, rest) => (c :: front, rest)
    | none => (splitBefore? mark follows s).map fun (front, rest) => (c :: front, rest)

def beginsWithDigit (s : Text) : Bool := s.head?.any isDecimal

/-- The message and the line number of an error, from the text behind `error:` without blanks
in front; all of it stands on one line. The rest begins behind the number. -/
def description? (s : Text) : Option (Text × Text × Text) := do
  let line := s.takeWhile (· != '\n')
  let (message, place) ← splitBefore? " in ".toList (fun _ => true) line
  let (_, number) ← splitBefore? " on line ".toList beginsWithDigit place
  let digits := number.takeWhile isDecimal
  let read := line.length - (number.length - digits.length)
  return (message, digits, s.drop read)

/-- The first description that a text gives when ever fewer of its `n` blanks in front are
passed over. -/
def descriptionBehind? (s : Text) : Nat → Option (Text × Text × Text)
  | 0 => description? s
  | n + 1 => (description? (s.drop (n + 1))).or (descriptionBehind? s n)

def error? (s : Text) : Option (Text × Text × Text) := do
  let s := (Text.strip? "PHP ".toList s).getD s
  let s ← (Text.strip? "Parse".toList s).or (Text.strip? "Fatal".toList s)
  let s ← Text.strip? " error:".toList s
  descriptionBehind? s (s.takeWhile isBlank).length

/-- The errors in a text, each a message and a line number. -/
def errors : Nat → Text → List (Text × Text)
  | 0, _ => []
  | fuel + 1, s =>
    if s.isEmpty then []
    else match error? s with
      | some (message, digits, rest) => (message, digits) :: errors fuel (nextLine rest)
      | none => errors fuel (nextLine s)

/-- The message for an output without an error in it: its first line that is not blank. -/
def firstLine (s : Text) : Text :=
  (((Text.lines s).map Text.trim).find? (! ·.isEmpty)).getD "php -l failed".toList

def sourceErrors (file : String) (output : Text) : List SourceError :=
  match errors (output.length + 1) output with
  | [] => [⟨file, none, String.ofList (firstLine output)⟩]
  | found => found.map fun (message, digits) =>
    ⟨file, segment? digits, String.ofList (Text.trim message)⟩

end LintOutput

/-- What an interpreter printed about a file, and whether it accepted it. -/
structure InterpreterOutput where
  accepted : Bool
  stdout : ByteArray
  stderr : ByteArray

/-- What asking a program for its version comes to. -/
inductive Interpreter where
  | missing
  | refused (kind : IoKind)
  /-- it runs, but does not answer -/
  | unusable
  | usable (lint : FileSystem → Path → InterpreterOutput)

namespace Interpreter

/-- The directories that a list of them names. Where no list is given, they are the system's. -/
def searchDirectories (setting : Option String) : List Path :=
  (Text.splitAt (· == ':') (setting.getD "/bin:/usr/bin").toList).map Path.mk

/-- Looks for a program in one directory after the other. A file that must not be started is
passed over, and counts at the end, as `forbidden` tells; otherwise the last directory does. -/
def search (programAt : Path → Interpreter) (name : Path) (forbidden : Bool)
    (last : Interpreter) : List Path → Interpreter
  | [] => if forbidden then .refused .permissionDenied else last
  | dir :: dirs =>
    match programAt (dir.join name) with
    | .missing => search programAt name forbidden .missing dirs
    | .refused .notADirectory =>
      search programAt name forbidden (.refused .notADirectory) dirs
    | .refused .permissionDenied => search programAt name true last dirs
    | found => found

/-- The program of a name: one with a slash in it is a path, and any other is looked for. -/
def named (programAt : Path → Interpreter) (dirs : List Path) (name : String) : Interpreter :=
  if name.toList.contains '/' then programAt (.ofString name)
  else search programAt (.ofString name) false .missing dirs

def names (version : String) : List String := ["php" ++ version, "php"]

/-- The first interpreter among these that answers. -/
def firstUsable (version : String) :
    List Interpreter → Except Failure (FileSystem → Path → InterpreterOutput)
  | [] => .error (.unavailable "php" ("no PHP " ++ version ++ " binary found on PATH"))
  | .usable lint :: _ => .ok lint
  | .refused kind :: _ => .error (.unavailable "php" kind.message)
  | .missing :: rest => firstUsable version rest
  | .unusable :: rest => firstUsable version rest

/-- The directories whose files are not checked. -/
def isSkipped (name : Text) : Bool := name = "vendor".toList || name = "node_modules".toList

def phpFiles (fs : FileSystem) (dir : Path) : Except Failure (List Path) := do
  let files ← (fs.filesBelow isSkipped dir).mapError (.io dir)
  return (files.filter fun p => p.extension? = some "php".toList).mergeSort Path.le

def errorsIn (lint : FileSystem → Path → InterpreterOutput) (fs : FileSystem) (dir file : Path) :
    List SourceError :=
  let output := lint fs file
  if output.accepted then []
  else LintOutput.sourceErrors (Path.relativeTo dir file)
    (lossyText output.stdout ++ lossyText output.stderr)

/-- Checks the sources of a directory. No interpreter is needed where there are none. -/
def checkSources (find : String → List Interpreter) (fs : FileSystem) (version : String)
    (dir : Path) : Except Failure (List SourceError) := do
  let files ← phpFiles fs dir
  if files.isEmpty then return []
  let lint ← firstUsable version (find version)
  return files.flatMap (errorsIn lint fs dir)

/-- The linter that runs an interpreter; `find` gives the programs to try for a version. -/
def linter (find : String → List Interpreter) : Linter := ⟨checkSources find, false⟩

end Interpreter

end ExtensionAudit
