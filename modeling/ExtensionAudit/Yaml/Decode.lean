import ExtensionAudit.Yaml.Document
/-
  What a YAML node stands for where a text, a list, a structure or a number is
  wanted. An empty node stands for an empty list or structure and for what is
  missing; `null` and `~` stand for what is missing only where it may be. An alias
  is followed where its value is wanted, and a reading ends without a result when it
  has followed too many of them.
-/

namespace ExtensionAudit.Yaml

/-- A reading of nodes, which may fail. Its state is the number of aliases that it may still
follow. -/
abbrev Reading := StateT Nat Option

namespace Document

/-- How many aliases may be followed for every event of a document. -/
def aliasesPerEvent : Nat := 100

/-- How many aliases may be followed while a document is read. -/
def aliasLimit (d : Document) : Nat := aliasesPerEvent * d.root.events

/-- The node itself, or the one that an alias means, which uses up one of the aliases that may be
followed. -/
def resolve (d : Document) : Node → Reading Node
  | .alias_ number => fun
    | 0 => none
    | left + 1 => (d.meaning? number).map (·, left)
  | n => pure n

end Document

def isEmpty : Node → Bool
  | .scalar text style _ => text.isEmpty && style = .plain
  | _ => false

def isNull (text : Text) : Bool :=
  ["null", "Null", "NULL", "~"].any fun spelling => text = spelling.toList

def nullTag : Tag := Tag.ofText "tag:yaml.org,2002:null".toList

def intTag : Tag := Tag.ofText "tag:yaml.org,2002:int".toList

def text (d : Document) (n : Node) : Reading String := do
  match ← d.resolve n with
  | .scalar text _ _ => return String.ofList text
  | _ => failure

/-- Whether a scalar is there, is missing, or is tagged as null without being it. -/
def presence? (text : Text) (style : Style) (tag : Option Tag) : Option Bool :=
  if style ≠ .plain then some true
  else match tag with
    | some tag =>
      if tag = nullTag then if isNull text then some false else none else some true
    | none => some (!text.isEmpty && !isNull text)

def optional {α : Type} (d : Document) (value : Node → Reading α) (n : Node) :
    Reading (Option α) := do
  let n ← d.resolve n
  match n with
  | .scalar text style tag =>
    if ← presence? text style tag then some <$> value n else return none
  | _ => some <$> value n

def list {α : Type} (d : Document) (item : Node → Reading α) (n : Node) : Reading (List α) := do
  match ← d.resolve n with
  | .sequence items => items.mapM item
  | n => if isEmpty n then return [] else failure

/-- The value of a field that stands at most once. -/
def field? (pairs : List (String × Node)) (name : String) : Option (Option Node) :=
  match pairs.filterMap fun (k, n) => if k = name then some n else none with
  | [] => some none
  | [n] => some (some n)
  | _ => none

/-- The fields of a structure by their names, as far as they are given. -/
def fields (d : Document) (names : List String) (n : Node) : Reading (List (Option Node)) := do
  match ← d.resolve n with
  | .mapping pairs =>
    let pairs ← pairs.mapM fun (k, v) => return (← text d k, v)
    liftM (names.mapM (field? pairs))
  | n => if isEmpty n then return names.map fun _ => none else failure

/-- The value of a field, or what stands for it when it is not given. -/
def orElse {α : Type} (default : α) (value : Node → Reading α) : Option Node → Reading α
  | none => return default
  | some n => value n

/-! ## Integers -/

/-- The value of a digit in a base up to sixteen. -/
def digit? (base : Nat) (c : Char) : Option Nat :=
  (hexDigit? c).filter (· < base)

/-- The value of a nonempty run of digits. -/
def natural? (base : Nat) (s : Text) : Option Nat :=
  if s.isEmpty then none
  else s.foldlM (fun n c => (digit? base c).map (base * n + ·)) 0

/-- The base that a text announces, and the digits behind the announcement. -/
def based? : Text → Option (Nat × Text)
  | '0' :: 'x' :: s => some (16, s)
  | '0' :: 'o' :: s => some (8, s)
  | '0' :: 'b' :: s => some (2, s)
  | _ => none

/-- Whether digits are no number because a zero stands in front of them. -/
def hasLeadingZero (s : Text) : Bool :=
  match s with
  | '0' :: _ :: _ => s.all Char.isDigit
  | _ => false

def unsigned? (s : Text) : Option Nat :=
  match (based? s).bind fun (base, digits) => natural? base digits with
  | some n => some n
  | none => if hasLeadingZero s then none else natural? 10 s

/-- Whether a number fits into 64 bits with a sign. -/
def fits (n : Int) : Bool := -9223372036854775808 ≤ n && n < 9223372036854775808

def integerOf? (s : Text) : Option Int :=
  let n? : Option Int := match s with
    | '-' :: s => (unsigned? s).map fun n => -(n : Int)
    | '+' :: s => (unsigned? s).map fun n => (n : Int)
    | s => (unsigned? s).map fun n => (n : Int)
  n?.filter fits

/-- An integer: a plain scalar, or a literal block that is tagged as one. -/
def integer (d : Document) (n : Node) : Reading Int := do
  match ← d.resolve n with
  | .scalar text style tag =>
    if style = .plain || (style = .literal && tag = some intTag) then integerOf? text else failure
  | _ => failure

/-- Reads a YAML text whose document is a structure; a text without a document is as good as
one with an empty document. -/
def decode? {α : Type} (value : Document → Node → Reading α) (s : String) : Option α := do
  let d := (← parse? s.toList).getD ⟨.empty, []⟩
  (value d d.root).run' d.aliasLimit

end ExtensionAudit.Yaml
