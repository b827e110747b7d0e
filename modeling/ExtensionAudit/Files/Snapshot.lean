import ExtensionAudit.Files.FileSystem
/-
  File systems from listings, and what differs between two of them.
-/

namespace ExtensionAudit.FileSystem

/-- The location that a path names from a directory, when no link is on its way. -/
def locationFrom (base : Location) (p : Path) : Location :=
  let step (l : Location) (piece : Text) : Location :=
    match Path.componentOf? piece with
    | none => l
    | some .parent => l.dropLast
    | some _ => l ++ [piece]
  p.pieces.foldl step (if p.isAbsolute then [] else base)

/-- The file system with directories at a location and above it, where nothing stands. -/
def withDirectories (fs : FileSystem) (l : Location) : FileSystem :=
  (List.range (l.length + 1)).foldl
    (fun fs n => if (fs.get? (l.take n)).isSome then fs else fs.put (l.take n) .directory) fs

/-- Puts an entry at a location, below directories. A directory that is there stays as it is. -/
def place (fs : FileSystem) (l : Location) (e : Entry) : FileSystem :=
  let fs := fs.withDirectories l.dropLast
  match e, fs.get? l with
  | .directory, some _ => fs
  | e, _ => fs.put l e

/-- The file system that holds a directory, from which relative paths begin, and the entries
at these locations. -/
def ofListing (here : Location) (listing : List (Location × Entry)) : FileSystem :=
  listing.foldl (fun fs (l, e) => fs.place l e) (withDirectories ⟨[], here⟩ here)

def files (fs : FileSystem) : List (Location × ByteArray) :=
  fs.entries.filterMap fun (l, e) =>
    match e with
    | .file content _ => some (l, content)
    | _ => none

/-- The files that are different afterwards: their new contents, or none where they are gone. -/
def changes (before after : FileSystem) : List (Location × Option ByteArray) :=
  let old := before.files
  let new := after.files
  (new.filter fun (l, content) => old.lookup l != some content).map (fun (l, c) => (l, some c)) ++
  (old.filter fun (l, _) => (new.lookup l).isNone).map fun (l, _) => (l, none)

end ExtensionAudit.FileSystem
