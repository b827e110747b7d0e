import ExtensionAudit.Files.FileSystem
/-
  Listing directories: the entries of one directory, and the files anywhere below
  one. A walk goes through the directory it starts at even when that is a link,
  and through no other link.
-/

namespace ExtensionAudit.FileSystem

def namesIn (fs : FileSystem) (l : Location) : List Text :=
  fs.entries.filterMap fun (k, _) =>
    match k.getLast? with
    | some name => if k.dropLast = l then some name else none
    | none => none

def list (fs : FileSystem) (p : Path) : Except IoKind (List Path) := do
  match ← fs.target p with
  | (l, .directory) => return (fs.namesIn l).map fun name => p.join ⟨name⟩
  | _ => throw .notADirectory

/-- The directories that a directory holds, links to directories among them, in path order.
A missing directory holds none. -/
def subdirectories (fs : FileSystem) (p : Path) : Except IoKind (List Path) :=
  match fs.list p with
  | .ok ps => .ok ((ps.filter fs.isDirectory).mergeSort Path.le)
  | .error .notFound => .ok []
  | .error e => .error e

/-- The names that lead from one location down to another below it. -/
def namesBelow? : Location → Location → Option (List Text)
  | [], [] => none
  | [], names => some names
  | _ :: _, [] => none
  | a :: base, b :: l => if a = b then namesBelow? base l else none

/-- The paths of the files below a directory at `l` whose path is `p`, apart from those under
or with a skipped name. -/
def filesInside (fs : FileSystem) (skip : Text → Bool) (p : Path) (l : Location) : List Path :=
  fs.entries.filterMap fun (k, e) =>
    match e, namesBelow? l k with
    | .file _ _, some names =>
      if names.any skip then none else some (names.foldl (fun q name => q.join ⟨name⟩) p)
    | _, _ => none

def walkName (p : Path) : Text := p.fileName?.getD p.text

/-- The files below a path, or the file at it. What has a skipped name is left out with all
that is below it, and what is missing has no files. -/
def filesBelow (fs : FileSystem) (skip : Text → Bool) (p : Path) : Except IoKind (List Path) :=
  match fs.resolve false p with
  | .error .notFound => .ok []
  | .error e => .error e
  | .ok (.missing _ _) => .ok []
  | .ok (.found l .directory) =>
    .ok (if skip (walkName p) then [] else fs.filesInside skip p l)
  | .ok (.found _ (.file _ _)) => .ok (if skip (walkName p) then [] else [p])
  | .ok (.found _ (.link _)) =>
    match fs.target p with
    | .ok (l, .directory) => .ok (fs.filesInside skip p l)
    | .ok _ => .ok []
    | .error .notFound => .ok []
    | .error e => .error e

/-- Drops paths that have the same components as the one in front of them. -/
def dropRepeated : List Path → List Path
  | p :: q :: rest => if p.same q then dropRepeated (p :: rest) else p :: dropRepeated (q :: rest)
  | ps => ps
  termination_by ps => ps.length

end ExtensionAudit.FileSystem
