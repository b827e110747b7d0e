import ExtensionAudit.Files.FileSystem
/-
  Replacing a file in one go. The new content is written to a temporary file next
  to the target, which then takes the target's name, so that the target holds its
  old content or the new one at every step. A fault makes one step fail; without
  one, a step fails only when the file system refuses it.
-/

namespace ExtensionAudit

namespace FileSystem

def makeDirectory (fs : FileSystem) (p : Path) : Except IoKind FileSystem := do
  match ← fs.resolve false p with
  | .found _ _ => throw .alreadyExists
  | .missing l _ => return fs.put l .directory

/-- Makes one directory unless it is there. -/
def ensureDirectory (fs : FileSystem) (p : Path) : FileSystem × Option IoKind :=
  match fs.makeDirectory p with
  | .ok fs => (fs, none)
  | .error e => (fs, if fs.isDirectory p then none else some e)

/-- Makes a directory and at most `depth` missing ones above it. -/
def makeDirectoriesWithin (fs : FileSystem) (p : Path) : Nat → FileSystem × Option IoKind
  | 0 => if p.text.isEmpty then (fs, none) else fs.ensureDirectory p
  | depth + 1 =>
    match fs.makeDirectory p, p.parent? with
    | .error .notFound, some parent =>
      match fs.makeDirectoriesWithin parent depth with
      | (fs, none) => fs.ensureDirectory p
      | failed => failed
    | _, _ => fs.ensureDirectory p

/-- Makes a directory and the missing ones above it. Those that were made before one could not be
made stay. -/
def makeDirectories (fs : FileSystem) (p : Path) : FileSystem × Option IoKind :=
  fs.makeDirectoriesWithin p p.components.length

/-- Opens a file for writing: it is emptied when it is there and made when it is not. The
location is that of the file itself, links followed. -/
def openEmpty (fs : FileSystem) (p : Path) : Except IoKind (FileSystem × Location) := do
  match ← fs.resolve true p with
  | .found _ .directory => throw .isADirectory
  | .found l (.file _ executable) => return (fs.put l (.file .empty executable), l)
  | .found _ (.link _) => throw .linkLoop
  | .missing l rest =>
    if rest.isEmpty then return (fs.put l (.file .empty false), l) else throw .isADirectory

def setContent (fs : FileSystem) (l : Location) (content : ByteArray) : FileSystem :=
  match fs.get? l with
  | some (.file _ executable) => fs.put l (.file content executable)
  | _ => fs.put l (.file content false)

/-- Removes a file or a link; what cannot be removed stays. -/
def remove (fs : FileSystem) (p : Path) : FileSystem :=
  match fs.resolve false p with
  | .ok (.found _ .directory) => fs
  | .ok (.found l _) => fs.erase l
  | _ => fs

/-- Gives a file or link another name, in place of any file or link of that name. A name is
looked up where it stands: a link of that name is not followed, and `.` and `..` are none. -/
def rename (fs : FileSystem) (source target : Path) : Except IoKind FileSystem := do
  match ← fs.resolve false source with
  | .missing _ _ => throw .notFound
  | .found from_ e =>
    let (dir, name) ← fs.lastStep target
    if name == ['.'] || name == ['.', '.'] then throw .busy
    if nameLimit < nameSize name then throw .nameTooLong
    if target.text.getLast? == some '/' then throw .notADirectory
    match fs.get? (dir ++ [name]) with
    | some .directory => throw .isADirectory
    | _ => return (fs.erase from_).put (dir ++ [name]) e

end FileSystem

inductive WriteStep where
  | makeParents | openTemporary | lock | write | sync | unlock | rename
  deriving DecidableEq, Repr

def WriteStep.all : List WriteStep :=
  [.makeParents, .openTemporary, .lock, .write, .sync, .unlock, .rename]

/-- A step that is made to fail, how, and how many bytes a failing write has written. -/
structure WriteFault where
  step : WriteStep
  kind : IoKind
  written : Nat
  deriving DecidableEq, Repr

/-- A file to replace, its new content, and the process that does it. -/
structure AtomicWrite where
  path : Path
  content : ByteArray
  process : Nat

/-- The file system between two steps, and the location of the open temporary file. -/
structure WriteState where
  fs : FileSystem
  handle : Location

namespace AtomicWrite

def temporaryName (w : AtomicWrite) : Text :=
  '.' :: w.path.fileName?.getD [] ++ '.' :: (toString w.process).toList ++ ".tmp".toList

/-- The path of the temporary file, next to the target. -/
def temporary (w : AtomicWrite) : Path := w.path.withFileName w.temporaryName

/-- How a step is reported that fails in a given way. -/
def failureOf (w : AtomicWrite) (kind : IoKind) : WriteStep → Failure
  | .makeParents => .io (w.path.parent?.getD w.path) kind
  | .openTemporary => .io w.temporary kind
  | .lock => .lockFailed w.path
  | .write => .io w.temporary kind
  | .sync => .io w.temporary kind
  | .unlock => .lockFailed w.path
  | .rename => .io w.path kind

/-- What a step does when nothing is made to fail, and whether the file system refuses it. -/
def perform (w : AtomicWrite) (s : WriteState) : WriteStep → WriteState × Option IoKind
  | .makeParents =>
    match w.path.parent? with
    | some parent =>
      let (fs, refused) := s.fs.makeDirectories parent
      ({ s with fs := fs }, refused)
    | none => (s, none)
  | .openTemporary =>
    match s.fs.openEmpty w.temporary with
    | .ok (fs, l) => (⟨fs, l⟩, none)
    | .error kind => (s, some kind)
  | .write => ({ s with fs := s.fs.setContent s.handle w.content }, none)
  | .rename =>
    match s.fs.rename w.temporary w.path with
    | .ok fs => ({ s with fs := fs }, none)
    | .error kind => ({ s with fs := s.fs.remove w.temporary }, some kind)
  | .lock => (s, none)
  | .sync => (s, none)
  | .unlock => (s, none)

/-- What a step leaves behind when it is made to fail: a write its first bytes, and a rename no
temporary file. -/
def abandon (w : AtomicWrite) (s : WriteState) (written : Nat) : WriteStep → WriteState
  | .write => { s with fs := s.fs.setContent s.handle (w.content.extract 0 written) }
  | .rename => { s with fs := s.fs.remove w.temporary }
  | _ => s

/-- Does a step, unless it is the one made to fail. -/
def attempt (w : AtomicWrite) (fault : Option WriteFault) (s : WriteState) (step : WriteStep) :
    WriteState × Option Failure :=
  match fault.filter (·.step = step) with
  | some f => (w.abandon s f.written step, some (w.failureOf f.kind step))
  | none =>
    let (s, refused) := w.perform s step
    (s, refused.map fun kind => w.failureOf kind step)

/-- Does steps until one fails: the file systems on the way, last first, and the failure. -/
def runSteps (w : AtomicWrite) (fault : Option WriteFault) (seen : List FileSystem)
    (s : WriteState) : List WriteStep → List FileSystem × Option Failure
  | [] => (seen, none)
  | step :: steps =>
    match w.attempt fault s step with
    | (s, none) => w.runSteps fault (s.fs :: seen) s steps
    | (s, some failure) => (s.fs :: seen, some failure)

/-- Replaces the file: the file systems on the way, last first, and the failure if there is
one. -/
def run (w : AtomicWrite) (fault : Option WriteFault) (fs : FileSystem) :
    List FileSystem × Option Failure :=
  w.runSteps fault [fs] ⟨fs, []⟩ WriteStep.all

end AtomicWrite

/-- A process that replaces files, and for each file the fault that it meets there. -/
structure WritingProcess where
  number : Nat
  fault : Path → Option WriteFault

namespace WritingProcess

def faultless (number : Nat) : WritingProcess := ⟨number, fun _ => none⟩

instance : Coe Nat WritingProcess := ⟨faultless⟩

end WritingProcess

/-- Replaces a text file: the file system afterwards, and the failure if there is one. -/
def FileSystem.writeText (fs : FileSystem) (p : Path) (text : String) (process : WritingProcess) :
    FileSystem × Option Failure :=
  let (states, failure) :=
    AtomicWrite.run ⟨p, text.toUTF8, process.number⟩ (process.fault p) fs
  (states.headD fs, failure)

end ExtensionAudit
