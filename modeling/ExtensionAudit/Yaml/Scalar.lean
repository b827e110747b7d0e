import ExtensionAudit.Yaml.Cursor
/-
  Scalars of a YAML text: plain, in single or double quotes, and as blocks, either
  literal or folded. Each reader gives the text that a scalar stands for and the
  place behind it, or nothing where the scalar is malformed. The fuel of a reader
  is the number of characters left.
-/

namespace ExtensionAudit.Yaml

/-- How a scalar is written. -/
inductive Style where
  | plain | single | double | literal | folded
  deriving DecidableEq, Repr

/-! ## Plain scalars -/

/-- Whether a character separates the entries of flow collections. -/
def isFlowMark (c : Char) : Bool := c = ',' || c = '[' || c = ']' || c = '{' || c = '}'

/-- Reads a word of a plain scalar. In a flow collection a colon in front of a separator or a
question mark is refused. -/
def plainWord? (flow : Bool) : Text → Option Text
  | [] => some []
  | c :: s =>
    if isSpaceOrBreak c then some []
    else
      let beforeMark := match s with
        | x :: _ => isFlowMark x || x = '?'
        | [] => false
      if flow && c = ':' && beforeMark then none
      else if (c = ':' && atGap s) || (flow && isFlowMark c) then some []
      else (plainWord? flow s).map (c :: ·)

/-- A plain scalar, the place behind it, and whether a line break was read behind its end. -/
structure PlainScalar where
  text : Text
  cursor : Cursor
  newLine : Bool

/-- Reads the rest of a plain scalar, `done` being its text up to the gap `g`. -/
def plainRest? (flow : Bool) (indent : Nat) : Nat → Text → Gap → Cursor → Option PlainScalar
  | 0, _, _, _ => none
  | fuel + 1, done, g, c =>
    let stop : PlainScalar := ⟨done, c, g.first.isSome⟩
    if c.atDocumentMarker || c.rest.head? = some '#' then some stop
    else do
      let word ← plainWord? flow c.rest
      if word.isEmpty then return stop
      let done := done ++ g.text ++ word
      let c := c.skip word.length
      let (g, next) ← readGap indent c.rest.length .none c
      if next.index = c.index then return ⟨done, c, false⟩
      if !flow && next.column < indent then return ⟨done, next, g.first.isSome⟩
      plainRest? flow indent fuel done g next

/-- Reads a plain scalar; in a block, lines left of column `indent` do not belong to it. -/
def plain? (flow : Bool) (indent : Nat) (c : Cursor) : Option PlainScalar :=
  plainRest? flow indent (c.rest.length + 1) [] .none c

/-! ## Quoted scalars -/

def hexDigit? (c : Char) : Option Nat :=
  if c.isDigit then some (c.toNat - '0'.toNat)
  else if 'a' ≤ c && c ≤ 'f' then some (c.toNat - 'a'.toNat + 10)
  else if 'A' ≤ c && c ≤ 'F' then some (c.toNat - 'A'.toNat + 10)
  else none

/-- The character that `n` hexadecimal digits in front of a text stand for. -/
def hexChar? (n : Nat) (s : Text) : Option Char := do
  let digits ← (s.take n).mapM hexDigit?
  let value := digits.foldl (fun v d => 16 * v + d) 0
  if digits.length = n && value.isValidChar then some (Char.ofNat value) else none

def escaped? : Char → Option Char
  | '0' => some '\x00'
  | 'a' => some '\x07'
  | 'b' => some '\x08'
  | 't' => some '\t'
  | '\t' => some '\t'
  | 'n' => some '\n'
  | 'v' => some '\x0b'
  | 'f' => some '\x0c'
  | 'r' => some '\r'
  | 'e' => some '\x1b'
  | ' ' => some ' '
  | '"' => some '"'
  | '/' => some '/'
  | '\\' => some '\\'
  | 'N' => some '\u0085'
  | '_' => some '\u00a0'
  | 'L' => some '\u2028'
  | 'P' => some '\u2029'
  | _ => none

/-- How many hexadecimal digits an escape by code takes. -/
def escapeLength? : Char → Option Nat
  | 'x' => some 2
  | 'u' => some 4
  | 'U' => some 8
  | _ => none

/-- Reads the characters up to a blank, a line break or the closing quote, and the escaped line
break at the end of a line, if there is one. -/
def quotedRun? (double : Bool) : Nat → Text → Cursor → Option (Text × Cursor × Bool)
  | 0, done, c => some (done, c, false)
  | fuel + 1, done, c =>
    match c.rest with
    | [] => some (done, c, false)
    | x :: s =>
      if isSpaceOrBreak x then some (done, c, false)
      else if !double && x = '\'' then
        match s with
        | '\'' :: _ => quotedRun? double fuel (done ++ ['\'']) (c.skip 2)
        | _ => some (done, c, false)
      else if double && x = '"' then some (done, c, false)
      else if double && x = '\\' then
        match s with
        | [] => none
        | y :: s =>
          if isBreak y then some (done, (c.skip 1).skipBreak, true)
          else match escapeLength? y with
            | some n =>
              match hexChar? n s with
              | some z => quotedRun? double fuel (done ++ [z]) (c.skip (2 + n))
              | none => none
            | none =>
              match escaped? y with
              | some z => quotedRun? double fuel (done ++ [z]) (c.skip 2)
              | none => none
      else quotedRun? double fuel (done ++ [x]) (c.skip 1)

/-- Reads the rest of a quoted scalar, its closing quote included. -/
def quotedRest? (double : Bool) : Nat → Text → Cursor → Option (Text × Cursor)
  | 0, _, _ => none
  | fuel + 1, done, c =>
    if c.atDocumentMarker || c.rest.isEmpty then none
    else do
      let (run, c, broken) ← quotedRun? double c.rest.length [] c
      let done := done ++ run
      if c.rest.head? = some (if double then '"' else '\'') then return (done, c.skip 1)
      let (g, c) ← readGap 0 c.rest.length (if broken then .escaped else .none) c
      quotedRest? double fuel (done ++ g.text) c

def quoted? (double : Bool) (c : Cursor) : Option (Text × Cursor) :=
  quotedRest? double (c.rest.length + 1) [] (c.skip 1)

/-! ## Block scalars -/

/-- What happens to the line breaks at the end of a block scalar. -/
inductive Chomping where
  | strip | clip | keep
  deriving DecidableEq, Repr

def chomping? : Char → Option Chomping
  | '+' => some .keep
  | '-' => some .strip
  | _ => none

/-- The indentation that a digit asks for; zero asks for none and is refused. -/
def increment? (c : Char) : Option Nat :=
  if c.isDigit && c ≠ '0' then some (c.toNat - '0'.toNat) else none

/-- Reads the marks behind the indicator of a block scalar: a chomping mark and a digit in
either order, each at most once. -/
def blockMarks? (c : Cursor) : Option (Chomping × Option Nat × Cursor) :=
  match c.rest with
  | x :: s =>
    match chomping? x with
    | some chomping =>
      match s with
      | y :: _ =>
        if y.isDigit then (increment? y).map fun n => (chomping, some n, c.skip 2)
        else some (chomping, none, c.skip 1)
      | [] => some (chomping, none, c.skip 1)
    | none =>
      if x.isDigit then
        (increment? x).map fun n =>
          match s.head?.bind chomping? with
          | some chomping => (chomping, some n, c.skip 2)
          | none => (.clip, some n, c.skip 1)
      else some (.clip, none, c)
  | [] => some (.clip, none, c)

/-- Reads empty lines and the indentation behind them, up to column `indent` or, while that is
zero, as far as it goes: the line breaks, the place, and the greatest column reached. -/
def blockBreaks? (indent : Nat) : Nat → Text → Nat → Cursor → Option (Text × Nat × Cursor)
  | 0, done, widest, c => some (done, widest, c)
  | fuel + 1, done, widest, c =>
    let spaces := c.rest.takeWhile (· = ' ')
    let n := if indent = 0 then spaces.length else min spaces.length (indent - c.column)
    let c := c.skip n
    let widest := max widest c.column
    if (indent = 0 || c.column < indent) && c.rest.head? = some '\t' then none
    else match lineBreak? c.rest with
      | some b => blockBreaks? indent fuel (done ++ b) widest c.skipBreak
      | none => some (done, widest, c)

/-- The column of a block scalar whose first line begins at `widest`: it lies right of the
column `parent` of the collection around it. -/
def blockIndent (parent : Int) (widest : Nat) : Nat :=
  max 1 (max widest (parent + 1).toNat)

/-- The text of a block scalar up to here, the line break of its last line, the line breaks
after that, and whether its last line begins with a blank. -/
structure BlockText where
  done : Text
  lineEnd : Text
  breaks : Text
  blank : Bool

/-- Joins the next line, which begins with `first`. -/
def BlockText.join (literal : Bool) (b : BlockText) (first : Option Char) : Text :=
  let blank := first.any isSpace
  if !literal && b.lineEnd = ['\n'] && !b.blank && !blank then
    b.done ++ (if b.breaks.isEmpty then [' '] else []) ++ b.breaks
  else b.done ++ b.lineEnd ++ b.breaks

def blockLines? (literal : Bool) (indent : Nat) :
    Nat → BlockText → Cursor → Option (BlockText × Cursor)
  | 0, b, c => some (b, c)
  | fuel + 1, b, c =>
    if c.column = indent && !c.rest.isEmpty then do
      let line := c.rest.takeWhile (! isBreak ·)
      let done := b.join literal c.rest.head? ++ line
      let c' := c.skip line.length
      let lineEnd := (lineBreak? c'.rest).getD []
      let (breaks, _, c') ← blockBreaks? indent c'.rest.length [] 0 c'.skipBreak
      blockLines? literal indent fuel ⟨done, lineEnd, breaks, c.rest.head?.any isSpace⟩ c'
    else some (b, c)

/-- The text of a block scalar with the line breaks at its end. -/
def BlockText.finish (chomping : Chomping) (b : BlockText) : Text :=
  match chomping with
  | .strip => b.done
  | .clip => b.done ++ b.lineEnd
  | .keep => b.done ++ b.lineEnd ++ b.breaks

/-- Reads a block scalar inside a collection at column `parent`. -/
def block? (literal : Bool) (parent : Int) (c : Cursor) : Option (Text × Cursor) := do
  let (chomping, increment, c) ← blockMarks? (c.skip 1)
  let c ← c.finishLine?
  let given := match increment with
    | some n => if 0 ≤ parent then parent.toNat + n else n
    | none => 0
  let (breaks, widest, c) ← blockBreaks? given c.rest.length [] 0 c
  let indent := if given = 0 then blockIndent parent widest else given
  let (b, c) ← blockLines? literal indent (c.rest.length + 1) ⟨[], [], breaks, false⟩ c
  return (b.finish chomping, c)

end ExtensionAudit.Yaml
