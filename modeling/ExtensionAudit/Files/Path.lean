import ExtensionAudit.Text.Search
/-
  Paths as written. A path is a text; its components are what the text names when
  repeated slashes, inner `.` and a final slash are passed over. Joining keeps the
  written text, comparing and ordering go by components.
-/

namespace ExtensionAudit

structure Path where
  text : Text
  deriving DecidableEq, Repr

namespace Path

inductive Component where
  | root
  | current
  | parent
  | normal (name : Text)
  deriving DecidableEq, Repr

def ofString (s : String) : Path := ⟨s.toList⟩

def toString (p : Path) : String := String.ofList p.text

/-- The texts between slashes. -/
def pieces (p : Path) : List Text := Text.splitAt (· == '/') p.text

/-- Whether the path starts at the root. -/
def isAbsolute (p : Path) : Bool :=
  match p.text with
  | '/' :: _ => true
  | _ => false

/-- The component a piece stands for; an empty piece and `.` stand for none. -/
def componentOf? (piece : Text) : Option Component :=
  if piece.isEmpty || piece == ['.'] then none
  else if piece == ['.', '.'] then some .parent
  else some (.normal piece)

/-- The component in front of the named ones: the root, or a leading `.`. -/
def start (p : Path) : List Component :=
  if p.isAbsolute then [.root]
  else match p.pieces with
    | ['.'] :: _ => [.current]
    | _ => []

def components (p : Path) : List Component := p.start ++ p.pieces.filterMap componentOf?

/-- Appends a path: an absolute one stands for itself, and an empty one adds a slash. -/
def join (p q : Path) : Path :=
  if q.isAbsolute then q
  else if p.text.isEmpty || p.text.getLast? == some '/' then ⟨p.text ++ q.text⟩
  else ⟨p.text ++ '/' :: q.text⟩

def child (p : Path) (s : String) : Path := p.join (.ofString s)

def unpieces (parts : List Text) : Text := ['/'].intercalate parts

/-- Drops the pieces at the end that stand for no component. -/
def dropIdleEnd (parts : List Text) : List Text :=
  (parts.reverse.dropWhile fun piece => (componentOf? piece).isNone).reverse

/-- Drops pieces from the front up to and including the first `n` that stand for a component,
and those in front of the next that does. -/
def dropNamed : Nat → List Text → List Text
  | _, [] => []
  | 0, piece :: rest => if (componentOf? piece).isNone then dropNamed 0 rest else piece :: rest
  | n + 1, piece :: rest =>
    if (componentOf? piece).isNone then dropNamed (n + 1) rest else dropNamed n rest

/-- The text of a path up to its last component. -/
def trimmedText (p : Path) : Text :=
  match p.start, p.pieces with
  | _ :: _, first :: rest =>
    match dropIdleEnd rest with
    | [] => if p.isAbsolute then ['/'] else first
    | kept => unpieces (first :: kept)
  | _, parts => unpieces (dropIdleEnd parts)

/-- What is left of the path below `base`, if it lies there. -/
def strip? (base p : Path) : Option Path :=
  if base.components.isPrefixOf p.components then
    some <|
      if base.components.isEmpty then ⟨p.trimmedText⟩
      else
        let named := base.components.length - base.start.length
        ⟨unpieces (dropIdleEnd (dropNamed named p.pieces))⟩
  else none

def isBelow (p base : Path) : Bool := base.components.isPrefixOf p.components

/-- The path without its last component. -/
def parent? (p : Path) : Option Path :=
  match p.components.getLast? with
  | none => none
  | some .root => none
  | some .current => some ⟨[]⟩
  | some _ =>
    let shorter := (dropIdleEnd p.pieces).dropLast
    some <|
      if shorter.isEmpty then ⟨[]⟩
      else if shorter.all (·.isEmpty) then ⟨['/']⟩
      else ⟨trimmedText ⟨unpieces shorter⟩⟩

/-- The name of the last component, unless it is the root or `..`. -/
def fileName? (p : Path) : Option Text :=
  match p.components.getLast? with
  | some (.normal name) => some name
  | _ => none

/-- The part of a name after its last dot; a dot in front of the name does not count. -/
def extensionOf? (name : Text) : Option Text :=
  let back := name.reverse
  match back.dropWhile (· != '.') with
  | _ :: _ :: _ => some (back.takeWhile (· != '.')).reverse
  | _ => none

def extension? (p : Path) : Option Text := p.fileName?.bind extensionOf?

/-- The path with another file name; one without a file name gets it appended. -/
def withFileName (p : Path) (name : Text) : Path :=
  match p.fileName? with
  | some _ => (p.parent?.getD p).join ⟨name⟩
  | none => p.join ⟨name⟩

/-- The name a component is written with, unless it stands for no step down or up. -/
def Component.step? : Component → Option Text
  | .normal name => some name
  | .parent => some ['.', '.']
  | _ => none

/-- Where an absolute path starts: at the root, which exactly two slashes spell too. -/
def rootOf (p : Path) : Path :=
  match p.text with
  | '/' :: '/' :: '/' :: _ => ⟨['/']⟩
  | '/' :: '/' :: _ => ⟨['/', '/']⟩
  | _ => ⟨['/']⟩

/-- The absolute path that a path means in the directory `base`. Repeated slashes and `.` are
left out; `..` and a slash at the end are kept, since what they mean depends on links. -/
def absolute (base p : Path) : Path :=
  let start := if p.isAbsolute then p.rootOf else base
  let whole := (p.components.filterMap Component.step?).foldl (fun q name => q.join ⟨name⟩) start
  if p.text.getLast? = some '/' then whole.join ⟨[]⟩ else whole

def Component.rank : Component → Nat
  | .root => 0
  | .current => 1
  | .parent => 2
  | .normal _ => 3

/-- The order of components: by kind, names by their characters. -/
def Component.le : Component → Component → Bool
  | .normal a, .normal b => !Text.isBefore b a
  | a, b => a.rank ≤ b.rank

/-- The order of component lists: the first difference decides. -/
def componentsLe : List Component → List Component → Bool
  | [], _ => true
  | _ :: _, [] => false
  | a :: as, b :: bs => if a = b then componentsLe as bs else a.le b

def le (p q : Path) : Bool := componentsLe p.components q.components

def same (p q : Path) : Bool := p.components == q.components

/-- The path relative to `root` where it lies below it, with slashes for backslashes. -/
def relativeTo (root p : Path) : String :=
  String.ofList (Text.replaceChar '\\' '/' ((strip? root p).getD p).text)

end Path

end ExtensionAudit
