import ExtensionAudit.Version.Basic
/-
  The shape of a written version: an optional `v`, one to four dotted segments
  and an optional stability suffix such as `-rc1`. Constraints allow the same
  shape with wildcards from the second segment on, so both readers share this one.
-/

namespace ExtensionAudit

inductive Segment where
  | digits (text : Text)
  | wildcard
  deriving DecidableEq, Repr

/-- A stability suffix as written: the stability and the digits after it, if any. -/
structure Suffix where
  stability : Stability
  digits : Option Text
  deriving DecidableEq, Repr

/-- A version as written, before its digits are given values. -/
structure Spelling where
  segments : List Segment
  suffix : Option Suffix
  deriving DecidableEq, Repr

namespace Spelling

/-- Removes a leading `v` in either case. -/
def dropMark : Text → Text
  | c :: s => if c = 'v' || c = 'V' then s else c :: s
  | [] => []

/-- Reads a nonempty run of decimal digits. -/
def digits? (s : Text) : Option (Text × Text) :=
  match s.takeWhile isDecimal with
  | [] => none
  | run => some (run, s.dropWhile isDecimal)

/-- Reads the segment after a dot, a wildcard where those are allowed. -/
def segment? (wildcards : Bool) (s : Text) : Option (Segment × Text) :=
  match digits? s with
  | some (run, r) => some (.digits run, r)
  | none =>
    match s with
    | c :: r => if wildcards && (c = '*' || c = 'x' || c = 'X') then some (.wildcard, r) else none
    | [] => none

/-- Reads at most `n` further segments, each after a dot. -/
def moreSegments (wildcards : Bool) : Nat → Text → List Segment × Text
  | n + 1, '.' :: s =>
    match segment? wildcards s with
    | some (segment, r) =>
      let (segments, rest) := moreSegments wildcards n r
      (segment :: segments, rest)
    | none => ([], '.' :: s)
  | _, s => ([], s)

def suffixWords : List (String × Stability) :=
  [("dev", .dev), ("alpha", .alpha), ("a", .alpha), ("beta", .beta), ("b", .beta), ("rc", .rc)]

/-- What may follow a suffix word: an optional dot and optional digits, up to the end. -/
def suffixDigits? (s : Text) : Option (Option Text) :=
  let run := match s with
    | '.' :: r => r
    | r => r
  if run.isEmpty then some none
  else if run.all isDecimal then some (some run) else none

/-- Reads the word `word` in any case and what follows it up to the end. -/
def suffixWord? (s : Text) (word : String) (stability : Stability) : Option Suffix :=
  let n := word.length
  if Text.sameIgnoringCase (s.take n) word.toList then
    (suffixDigits? (s.drop n)).map fun run => ⟨stability, run⟩
  else none

/-- Reads a whole suffix: an optional `-` or `.`, a suffix word and its number. -/
def suffix? (s : Text) : Option Suffix :=
  let body := match s with
    | c :: r => if c = '-' || c = '.' then r else c :: r
    | [] => []
  suffixWords.findSome? fun (word, stability) => suffixWord? body word stability

/-- Reads a whole text as a version; `wildcards` says whether wildcard segments are allowed. -/
def read? (wildcards : Bool) (s : Text) : Option Spelling := do
  let (first, r) ← digits? (dropMark s)
  let (segments, rest) := moreSegments wildcards 3 r
  if rest.isEmpty then return ⟨.digits first :: segments, none⟩
  let suffix ← suffix? rest
  return ⟨.digits first :: segments, some suffix⟩

end Spelling

/-- Why a text is no version. -/
inductive VersionFault where
  | notNumeric
  | segmentOutOfRange
  | numberOutOfRange
  deriving DecidableEq, Repr

def VersionFault.message : VersionFault → String
  | .notNumeric => "not a numeric release"
  | .segmentOutOfRange => "version segment out of range"
  | .numberOutOfRange => "stability number out of range"

namespace Version

/-- Whether the text is a literal release rather than a branch marker. -/
def isRelease (s : String) : Bool := (Spelling.read? false (Text.trim s.toList)).isSome

/-- The values of written segments, as far as they are digits. -/
def segmentValues : List Segment → Option (List Nat)
  | [] => some []
  | .wildcard :: _ => some []
  | .digits run :: rest => do
    let n ← segment? run
    let ns ← segmentValues rest
    return n :: ns

/-- Reads a release; the blanks around it are not part of its spelling. -/
def parse (s : String) : Except VersionFault Version := do
  let text := Text.trim s.toList
  let some spelling := Spelling.read? false text | throw .notNumeric
  let some values := segmentValues spelling.segments | throw .segmentOutOfRange
  let (stability, number) ← match spelling.suffix with
    | none => pure (.stable, 0)
    | some ⟨stability, none⟩ => pure (stability, 0)
    | some ⟨stability, some run⟩ =>
      match segment? run with
      | some n => pure (stability, n)
      | none => throw .numberOutOfRange
  return { Version.ofParts values stability number with spelling := String.ofList text }

end Version

end ExtensionAudit
