import ExtensionAudit.Failure
/-
  A file system as a table of locations. A location is the list of names from the
  root down, and an entry is a file, a directory or a link to a path as written.
  The root is a directory without being listed. A path is resolved one name at a
  time, following links, as far as its last name or through it.

  Main statements: `get?_put` and `get?_erase` (what a change does to the
  entry of a location, and that it leaves all others alone).
-/

namespace ExtensionAudit

/-- A place in a file system: the names from the root down. -/
abbrev Location := List Text

/-- What stands at a location. -/
inductive Entry where
  | file (content : ByteArray) (executable : Bool)
  | directory
  | link (target : Path)

/-- Files, directories and links by location, and the directory where relative paths begin. -/
structure FileSystem where
  entries : List (Location × Entry)
  workingDirectory : Location

namespace FileSystem

def find? (l : Location) : List (Location × Entry) → Option Entry
  | [] => none
  | (k, e) :: rest => if k = l then some e else find? l rest

def get? (fs : FileSystem) (l : Location) : Option Entry :=
  if l = [] then some .directory else find? l fs.entries

def without (l : Location) (t : List (Location × Entry)) : List (Location × Entry) :=
  t.filter fun p => decide (p.1 ≠ l)

def put (fs : FileSystem) (l : Location) (e : Entry) : FileSystem :=
  { fs with entries := (l, e) :: without l fs.entries }

/-- Takes away what stands at a location. -/
def erase (fs : FileSystem) (l : Location) : FileSystem :=
  { fs with entries := without l fs.entries }

theorem find?_without {l k : Location} (t : List (Location × Entry)) :
    find? k (without l t) = if k = l then none else find? k t := by
  induction t with
  | nil => simp [without, find?]
  | cons p t ih =>
    obtain ⟨m, e⟩ := p
    by_cases hm : m = l
    · have hd : without l ((m, e) :: t) = without l t := by simp [without, hm]
      rw [hd, ih, find?]
      by_cases hk : k = l
      · simp [hk]
      · have : ¬ m = k := fun h => hk (h ▸ hm)
        simp [this]
    · have hd : without l ((m, e) :: t) = (m, e) :: without l t := by simp [without, hm]
      rw [hd, find?, ih, find?]
      by_cases hk : m = k
      · have : ¬ k = l := fun h => hm (hk ▸ h)
        simp [hk, this]
      · simp [hk]

theorem get?_put {fs : FileSystem} {l k : Location} {e : Entry} (hl : l ≠ []) :
    (fs.put l e).get? k = if k = l then some e else fs.get? k := by
  by_cases hk : k = l
  · subst hk; simp [get?, put, find?, hl]
  · by_cases h0 : k = []
    · simp [get?, h0, Ne.symm hl]
    · have : ¬ l = k := fun h => hk h.symm
      simp [get?, put, find?, h0, hk, this, find?_without]

theorem get?_erase {fs : FileSystem} {l k : Location} (hl : l ≠ []) :
    (fs.erase l).get? k = if k = l then none else fs.get? k := by
  by_cases h0 : k = []
  · have : ¬ k = l := fun h => hl (h ▸ h0)
    simp [get?, h0, Ne.symm hl]
  · simp [get?, erase, h0, find?_without]

/-! ## Resolving paths -/

/-- Where a path leads. -/
inductive Place where
  /-- a location where something stands -/
  | found (l : Location) (e : Entry)
  /-- a name that a directory does not hold, and the pieces written behind it -/
  | missing (l : Location) (rest : List Text)

/-- The greatest number of links that one path may lead through. -/
def linkLimit : Nat := 40

/-- The greatest number of bytes in a name. -/
def nameLimit : Nat := 255

/-- The greatest number of bytes in a path as it is written. -/
def pathLimit : Nat := 4095

/-- The number of bytes that a name or a path takes. -/
def nameSize (name : Text) : Nat := (String.ofList name).utf8ByteSize

/-- Goes down from the directory `here` along pieces of a path; `jump` goes on behind a link.
A link as the last piece is followed only when `through` says so. -/
def followWith (fs : FileSystem) (through : Bool)
    (jump : Location → List Text → Except IoKind Place) (here : Location) :
    List Text → Except IoKind Place
  | [] => .ok (.found here .directory)
  | piece :: rest =>
    match Path.componentOf? piece with
    | none => followWith fs through jump here rest
    | some .parent => followWith fs through jump here.dropLast rest
    | some _ =>
      if nameLimit < nameSize piece then .error .nameTooLong
      else
        let l := here ++ [piece]
        match fs.get? l with
        | none => if rest.all (·.isEmpty) then .ok (.missing l rest) else .error .notFound
        | some .directory => followWith fs through jump l rest
        | some (.file content executable) =>
          if rest.isEmpty then .ok (.found l (.file content executable))
          else .error .notADirectory
        | some (.link target) =>
          if rest.isEmpty && !through then .ok (.found l (.link target))
          else jump (if target.isAbsolute then [] else here) (target.pieces ++ rest)

/-- Goes down from a directory along pieces of a path, through at most `links` links. -/
def follow (fs : FileSystem) (through : Bool) :
    (links : Nat) → Location → List Text → Except IoKind Place
  | 0 => fs.followWith through fun _ _ => .error .linkLoop
  | links + 1 => fs.followWith through (fs.follow through links)

/-- Where a path begins, unless it cannot be one. -/
def start (fs : FileSystem) (p : Path) : Except IoKind Location :=
  if p.text.isEmpty then .error .notFound
  else if p.text.contains '\x00' then .error .invalidPath
  else if pathLimit < nameSize p.text then .error .nameTooLong
  else .ok (if p.isAbsolute then [] else fs.workingDirectory)

/-- Where a path leads, the last link followed or not. -/
def resolve (fs : FileSystem) (through : Bool) (p : Path) : Except IoKind Place := do
  fs.follow through linkLimit (← fs.start p) p.pieces

/-- The directory in which the last piece of a path is looked up, and that piece; slashes behind
it are passed over. -/
def lastStep (fs : FileSystem) (p : Path) : Except IoKind (Location × Text) := do
  let start ← fs.start p
  match p.pieces.reverse.dropWhile (·.isEmpty) with
  | [] => return ([], ['.'])
  | piece :: above =>
    match ← fs.follow true linkLimit start above.reverse with
    | .found l .directory => return (l, piece)
    | .found _ _ => throw .notADirectory
    | .missing _ _ => throw .notFound

/-- What a path leads to, links followed. -/
def target (fs : FileSystem) (p : Path) : Except IoKind (Location × Entry) := do
  match ← fs.resolve true p with
  | .found l e => return (l, e)
  | .missing _ _ => throw .notFound

/-! ## Reading -/

def isFile (fs : FileSystem) (p : Path) : Bool :=
  match fs.target p with
  | .ok (_, .file _ _) => true
  | _ => false

def isDirectory (fs : FileSystem) (p : Path) : Bool :=
  match fs.target p with
  | .ok (_, .directory) => true
  | _ => false

def readBytes (fs : FileSystem) (p : Path) : Except IoKind ByteArray := do
  match ← fs.target p with
  | (_, .file content _) => return content
  | (_, .directory) => throw .isADirectory
  | (_, .link _) => throw .linkLoop

def readText (fs : FileSystem) (p : Path) : Except IoKind String := do
  match String.fromUTF8? (← fs.readBytes p) with
  | some s => return s
  | none => throw .invalidText

/-- The text of a file that may be missing. -/
def readOptional (fs : FileSystem) (p : Path) : Except IoKind (Option String) :=
  match fs.readText p with
  | .ok s => .ok (some s)
  | .error .notFound => .ok none
  | .error e => .error e

/-- The file system seen from the directory that a path leads to. -/
def enter (fs : FileSystem) (p : Path) : FileSystem :=
  match fs.target p with
  | .ok (l, .directory) => { fs with workingDirectory := l }
  | _ => fs

def pathOf (l : Location) : Path :=
  if l.isEmpty then ⟨['/']⟩ else ⟨l.flatMap fun name => '/' :: name⟩

/-- The path without links, `.` and `..` that leads to the same place. -/
def canonical (fs : FileSystem) (p : Path) : Except IoKind Path :=
  (fs.target p).map fun (l, _) => pathOf l

end FileSystem

end ExtensionAudit
