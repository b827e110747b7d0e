import ExtensionAudit.Text.Blank
/-
  A place in a YAML text: what is left of it, and the line and column reached.
  Line breaks are read as one line feed, except the two Unicode separators, which
  stand for themselves.
-/

namespace ExtensionAudit.Yaml

/-- What is left of a text, how many bytes are read, and the line and column reached. -/
structure Cursor where
  rest : Text
  index : Nat
  line : Nat
  column : Nat
  deriving Repr

/-- Whether a character is a blank inside a line. -/
def isSpace (c : Char) : Bool := c = ' ' || c = '\t'

def isBreak (c : Char) : Bool :=
  c = '\n' || c = '\r' || c = '\u0085' || c = '\u2028' || c = '\u2029'

/-- Whether a character is a blank or ends a line. -/
def isSpaceOrBreak (c : Char) : Bool := isSpace c || isBreak c

/-- Whether a text is at its end or begins with a blank or a line break. -/
def atGap : Text → Bool
  | [] => true
  | c :: _ => isSpaceOrBreak c

def atLineEnd : Text → Bool
  | [] => true
  | c :: _ => isBreak c

/-- Whether a character may stand in the name of an anchor, a directive or a tag handle. -/
def isNameChar (c : Char) : Bool := c.isAlphanum || c = '_' || c = '-'

def isAllowed (c : Char) : Bool :=
  let n := c.toNat
  n == 0x09 || n == 0x0A || n == 0x0D || (0x20 ≤ n && n ≤ 0x7E) || n == 0x85 ||
    (0xA0 ≤ n && n ≤ 0xFFFD) || 0x10000 ≤ n

def lineBreak? : Text → Option Text
  | c :: _ =>
    if c = '\u2028' || c = '\u2029' then some [c]
    else if isBreak c then some ['\n']
    else none
  | [] => none

namespace Cursor

/-- The beginning of a text. -/
def start (s : Text) : Cursor := ⟨s, 0, 0, 0⟩

def byteLength (s : Text) : Nat := s.foldl (fun n c => n + c.utf8Size) 0

/-- Passes over `n` characters of the line. -/
def skip (c : Cursor) (n : Nat) : Cursor :=
  ⟨c.rest.drop n, c.index + byteLength (c.rest.take n), c.line, c.column + n⟩

/-- Passes over a line break, if there is one. -/
def skipBreak (c : Cursor) : Cursor :=
  match c.rest with
  | '\r' :: '\n' :: s => ⟨s, c.index + 2, c.line + 1, 0⟩
  | x :: s => if isBreak x then ⟨s, c.index + x.utf8Size, c.line + 1, 0⟩ else c
  | [] => c

/-- Passes over the characters in front that satisfy `p`, none of which ends a line. -/
def skipWhile (p : Char → Bool) (c : Cursor) : Cursor := c.skip (c.rest.takeWhile p).length

/-- Passes over blanks, a comment behind them, and whatever else a line may end in. The rest of
the line must be empty. -/
def finishLine? (c : Cursor) : Option Cursor :=
  let c := c.skipWhile isSpace
  let c := match c.rest with
    | '#' :: _ => c.skipWhile (! isBreak ·)
    | _ => c
  if atLineEnd c.rest then some c.skipBreak else none

/-- Whether a line here begins with a document marker of three characters `mark`. -/
def atMarker (c : Cursor) (mark : Char) : Bool :=
  c.column == 0 && match c.rest with
    | x :: y :: z :: s => x = mark && y = mark && z = mark && atGap s
    | _ => false

/-- Whether a line here begins with either document marker. -/
def atDocumentMarker (c : Cursor) : Bool := c.atMarker '-' || c.atMarker '.'

end Cursor

/-- What stands between two words of a scalar: blanks of the first line, the first line break,
and the line breaks after it. -/
structure Gap where
  blanks : Text
  first : Option Text
  more : Text

namespace Gap

/-- Nothing. -/
def none : Gap := ⟨[], .none, []⟩

/-- A line break that was escaped, so that it stands for nothing. -/
def escaped : Gap := ⟨[], some [], []⟩

/-- What a gap stands for between two words: a single line feed is a space, further line breaks
stand for themselves. -/
def text (g : Gap) : Text :=
  match g.first with
  | .none => g.blanks
  | some ['\n'] => if g.more.isEmpty then [' '] else g.more
  | some other => other ++ g.more

/-- Adds a blank; behind a line break it is indentation. -/
def addBlank (g : Gap) (c : Char) : Gap :=
  if g.first.isNone then { g with blanks := g.blanks ++ [c] } else g

def addBreak (g : Gap) (b : Text) : Gap :=
  match g.first with
  | .none => { g with blanks := [], first := some b }
  | some _ => { g with more := g.more ++ b }

end Gap

/-- Reads the blanks and line breaks here; a tab in the indentation of a line left of column
`indent` is refused. `fuel` bounds the number of characters. -/
def readGap (indent : Nat) : Nat → Gap → Cursor → Option (Gap × Cursor)
  | 0, g, c => some (g, c)
  | fuel + 1, g, c =>
    match c.rest with
    | [] => some (g, c)
    | x :: _ =>
      if isSpace x then
        if g.first.isSome && c.column < indent && x = '\t' then none
        else readGap indent fuel (g.addBlank x) (c.skip 1)
      else match lineBreak? c.rest with
        | some b => readGap indent fuel (g.addBreak b) c.skipBreak
        | none => some (g, c)

end ExtensionAudit.Yaml
