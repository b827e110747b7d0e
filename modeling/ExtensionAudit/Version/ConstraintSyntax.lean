import ExtensionAudit.Version.Spelling
import ExtensionAudit.Version.Constraint
/-
  Reading constraints: alternatives separated by `||` or `|`, each either a
  hyphen range or a list of terms separated by blanks and commas, a term being an
  operator and an operand that may leave segments out or replace them by `*`.
-/

namespace ExtensionAudit

/-- Why a text is no constraint. -/
inductive ConstraintFault where
  | empty
  | emptyAlternative
  | invalidOperand (text : String)
  | segmentOutOfRange (segment : String)
  | numberOutOfRange (text : String)
  deriving DecidableEq, Repr

def ConstraintFault.message : ConstraintFault → String
  | .empty => "empty constraint"
  | .emptyAlternative => "empty alternative"
  | .invalidOperand text => "invalid version: " ++ text
  | .segmentOutOfRange segment => "version segment out of range: " ++ segment
  | .numberOutOfRange text => "stability number out of range: " ++ text

/-- The operand of a term: the segments written in front of any wildcard. -/
structure Operand where
  parts : List Nat
  wildcard : Bool
  stability : Option (Stability × Nat)
  deriving DecidableEq, Repr

namespace Operand

/-- The values of the segments up to the first wildcard, and whether there is one. -/
def partsOf : List Segment → Except ConstraintFault (List Nat × Bool)
  | [] => .ok ([], false)
  | .wildcard :: _ => .ok ([], true)
  | .digits run :: rest =>
    match segment? run with
    | none => .error (.segmentOutOfRange (String.ofList run))
    | some n => (partsOf rest).map fun (ns, wildcard) => (n :: ns, wildcard)

def parse (s : Text) : Except ConstraintFault Operand := do
  let some spelling := Spelling.read? true s | throw (.invalidOperand (String.ofList s))
  let (parts, wildcard) ← partsOf spelling.segments
  let stability ← match spelling.suffix with
    | none => pure none
    | some ⟨stability, none⟩ => pure (some (stability, 0))
    | some ⟨stability, some run⟩ =>
      match segment? run with
      | some n => pure (some (stability, n))
      | none => throw (.numberOutOfRange (String.ofList s))
  return ⟨parts, wildcard, stability⟩

/-- The version itself: stable unless a stability is written. -/
def exact (x : Operand) : Version :=
  let (stability, number) := x.stability.getD (.stable, 0)
  .ofParts x.parts stability number

/-- The version as a lower end: without a written stability it admits its own pre-releases. -/
def floor (x : Operand) : Version :=
  let (stability, number) := x.stability.getD (.dev, 0)
  .ofParts x.parts stability number

/-- The parts with the last one incremented, when that stays below the segment limit. -/
def increment : List Nat → Except ConstraintFault (List Nat)
  | [] => .ok []
  | [n] => if n + 1 < segmentLimit then .ok [n + 1] else .error (.segmentOutOfRange (toString n))
  | n :: ns => (increment ns).map (n :: ·)

/-- The least version whose parts up to `index` exceed the operand's. -/
def next (x : Operand) (index : Nat) : Except ConstraintFault Version :=
  (increment (x.parts.take (index + 1))).map fun parts => .ofParts parts .dev 0

def upToNext (x : Operand) (index : Nat) : Except ConstraintFault Term :=
  (x.next index).map fun upper => .range (.inclusive x.floor) (.exclusive upper)

def tildeIndex (x : Operand) : Nat := x.parts.length - 2

/-- The index that a caret range increments: the first nonzero part, or the last. -/
def caretIndex (x : Operand) : Nat :=
  (x.parts.findIdx? (· != 0)).getD (x.parts.length - 1)

end Operand

inductive Operator where
  | equal | atLeast | greater | atMost | less | unequal | tilde | caret
  deriving DecidableEq, Repr

namespace Operator

/-- Splits the operator off a term; a term without one compares for equality. -/
def split : Text → Operator × Text
  | '>' :: '=' :: s => (.atLeast, s)
  | '<' :: '=' :: s => (.atMost, s)
  | '!' :: '=' :: s => (.unequal, s)
  | '=' :: '=' :: s => (.equal, s)
  | '>' :: s => (.greater, s)
  | '<' :: s => (.less, s)
  | '=' :: s => (.equal, s)
  | '~' :: s => (.tilde, s)
  | '^' :: s => (.caret, s)
  | s => (.equal, s)

def term (op : Operator) (x : Operand) : Except ConstraintFault Term :=
  match op with
  | .equal =>
    if x.wildcard then
      if x.parts.isEmpty then .ok (.range .unbounded .unbounded)
      else x.upToNext (x.parts.length - 1)
    else .ok (.range (.inclusive x.exact) (.inclusive x.exact))
  | .atLeast => .ok (.range (.inclusive x.floor) .unbounded)
  | .greater => .ok (.range (.exclusive x.exact) .unbounded)
  | .atMost => .ok (.range .unbounded (.inclusive x.exact))
  | .less => .ok (.range .unbounded (.exclusive x.floor))
  | .unequal => .ok (.excluded x.exact)
  | .tilde => x.upToNext x.tildeIndex
  | .caret => x.upToNext x.caretIndex

end Operator

namespace Constraint

/-- Drops a stability flag such as `@dev` from the end of a term. -/
def dropFlag (s : Text) : Text :=
  let back := s.reverse
  match back.dropWhile Char.isAlpha with
  | '@' :: front => if (back.takeWhile Char.isAlpha).isEmpty then s else front.reverse
  | _ => s

def parseTerm (s : Text) : Except ConstraintFault Term := do
  let s := dropFlag s
  if s.isEmpty || s = ['*'] || s = ['x'] || s = ['X'] then
    return .range .unbounded .unbounded
  let (op, rest) := Operator.split s
  op.term (← Operand.parse rest)

def isOperatorEnd (c : Char) : Bool :=
  c = '>' || c = '<' || c = '=' || c = '~' || c = '^'

/-- Drops the blanks that follow an operator; `after` says whether one has just ended. -/
def joinOperators (after : Bool) : Text → Text
  | [] => []
  | c :: s =>
    if after && isBlank c then joinOperators true s
    else c :: joinOperators (isOperatorEnd c) s

/-- Reads a hyphen range from `low` to `high`. A high end with fewer than three parts, or with
a wildcard, takes in every version that begins with it. -/
def parseHyphen (low high : Text) : Except ConstraintFault Term := do
  let low ← Operand.parse low
  let high ← Operand.parse high
  let upper ←
    if high.parts.length < 3 || high.wildcard then
      (high.next (high.parts.length - 1)).map .exclusive
    else pure (.inclusive high.exact)
  return .range (.inclusive low.floor) upper

/-- Reads one alternative. -/
def parseGroup (s : Text) : Except ConstraintFault (List Term) :=
  match Text.words s with
  | [low, ['-'], high] => (parseHyphen low high).map ([·])
  | _ =>
    match Text.fields (fun c => c = ',' || isBlank c) (joinOperators false s) with
    | [] => .error .empty
    | terms => terms.mapM parseTerm

/-- Splits at every `||` and at every `|` left over. -/
def alternatives : Text → List Text
  | [] => [[]]
  | '|' :: '|' :: s => [] :: alternatives s
  | '|' :: s => [] :: alternatives s
  | c :: s =>
    match alternatives s with
    | [] => [[c]]
    | part :: parts => (c :: part) :: parts

/-- Reads an alternative between two separators. -/
def parseAlternative (s : Text) : Except ConstraintFault (List Term) :=
  match Text.trim s with
  | [] => .error .emptyAlternative
  | group => parseGroup group

/-- The text of a constraint: the written text without blanks around it. -/
def textOf (s : String) : String := trimmed s

def parse (s : String) : Except ConstraintFault Constraint := do
  let text := Text.trim s.toList
  if text.isEmpty then throw .empty
  let groups ← (alternatives text).mapM parseAlternative
  return ⟨groups, String.ofList text⟩

/-- Whether the text is a version that the constraint admits. -/
def satisfiedBy (c : Constraint) (s : String) : Bool :=
  match Version.parse s with
  | .ok v => c.admits v
  | .error _ => false

end Constraint

end ExtensionAudit
