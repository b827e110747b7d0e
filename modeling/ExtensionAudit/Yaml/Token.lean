import ExtensionAudit.Yaml.Scalar
/-
  The tokens of a YAML text. Indentation becomes opening and closing tokens, and a
  scalar, alias or collection that turns out to stand in front of a colon becomes
  a key afterwards: its candidate remembers where the key token belongs.
-/

namespace ExtensionAudit.Yaml

/-- The bytes of a tag. They need not spell a text. -/
abbrev Tag := List UInt8

/-- The tag that ASCII characters spell. -/
def Tag.ofText (s : Text) : Tag := s.map fun c => c.toNat.toUInt8

/-- A tag as far as it counts: up to the first zero byte. -/
def Tag.upToZero (t : Tag) : Tag := t.takeWhile (· != 0)

inductive Token where
  | streamEnd
  | versionDirective (major minor : Nat)
  | tagDirective (handle : Text) (start : Tag)
  | documentStart | documentEnd
  | blockSequence | blockMapping | blockEnd
  | flowSequence | flowSequenceEnd | flowMapping | flowMappingEnd
  | blockEntry | flowEntry | key | value
  | alias_ (name : Text)
  | anchor (name : Text)
  | tag (handle : Text) (suffix : Tag)
  | scalar (text : Text) (style : Style)
  deriving DecidableEq, Repr

/-- A place where a key may have begun: the number of tokens in front of it, and where it
stands. A required candidate begins a line of the block it is in. -/
structure Candidate where
  number : Nat
  required : Bool
  index : Nat
  line : Nat
  column : Nat

/-- The scanner between two tokens. Each collection in flow style, and the blocks around all of
them, has its own candidate, innermost first. -/
structure Scanner where
  cursor : Cursor
  indent : Int
  indents : List Int
  candidates : List (Option Candidate)
  keyAllowed : Bool
  /-- The tokens so far, last first. -/
  tokens : List Token
  count : Nat

namespace Scanner

/-- The beginning of a text. -/
def start (s : Text) : Scanner := ⟨.start s, -1, [], [none], true, [], 0⟩

def inFlow (s : Scanner) : Bool := 1 < s.candidates.length

def push (s : Scanner) (t : Token) : Scanner :=
  { s with tokens := t :: s.tokens, count := s.count + 1 }

def insertAt (s : Scanner) (number : Nat) (t : Token) : Scanner :=
  let (after, before) := s.tokens.splitAt (s.count - number)
  { s with tokens := after ++ t :: before, count := s.count + 1 }

def skip (s : Scanner) (n : Nat) : Scanner := { s with cursor := s.cursor.skip n }

def allowKey (s : Scanner) (allowed : Bool) : Scanner := { s with keyAllowed := allowed }

def candidate (s : Scanner) : Option Candidate := s.candidates.head?.join

/-- Replaces the candidate of the innermost collection. -/
def setCandidate (s : Scanner) (c : Option Candidate) : Scanner :=
  { s with candidates := c :: s.candidates.tail }

/-- Gives up the innermost candidate; a required one must not be given up. -/
def dropCandidate? (s : Scanner) : Option Scanner :=
  if s.candidate.any (·.required) then none else some (s.setCandidate none)

/-- Makes the place here a candidate where a key is allowed. -/
def saveCandidate? (s : Scanner) : Option Scanner :=
  if s.keyAllowed then do
    let s ← s.dropCandidate?
    let c := s.cursor
    return s.setCandidate <| some
      ⟨s.count, !s.inFlow && s.indent = c.column, c.index, c.line, c.column⟩
  else some s

/-- The greatest number of bytes between the beginning of a key and its colon. -/
def keyLimit : Nat := 1024

/-- Whether a candidate is too far back to be a key: on another line, or beyond the limit. -/
def isStale (s : Scanner) (c : Candidate) : Bool :=
  c.line < s.cursor.line || c.index + keyLimit < s.cursor.index

/-- Gives up the candidates that are too far back, none of which may be required. -/
def dropStale? (s : Scanner) : Option Scanner := do
  let candidates ← s.candidates.mapM fun c =>
    match c with
    | some c =>
      if s.isStale c then if c.required then none else some none
      else some (some c)
    | none => some none
  return { s with candidates := candidates }

/-- Opens a block at a column right of the one around it; the token goes behind the first
`number` ones. -/
def openBlock (s : Scanner) (column number : Nat) (t : Token) : Scanner :=
  if s.inFlow then s
  else if s.indent < column then
    { s.insertAt number t with indent := column, indents := s.indent :: s.indents }
  else s

/-- Closes the blocks right of a column; `indents` are those around the innermost one. -/
def closeBlocksTo (column : Int) : List Int → Scanner → Scanner
  | [], s => s
  | outer :: indents, s =>
    if column < s.indent then
      closeBlocksTo column indents { s.push .blockEnd with indent := outer, indents := indents }
    else s

def closeBlocks (s : Scanner) (column : Int) : Scanner :=
  if s.inFlow then s else closeBlocksTo column s.indents s

/-- Passes over blanks, comments and line breaks. A tab is a blank only where no key may
begin, and a line break of a block allows one. -/
def skipGap : Nat → Scanner → Scanner
  | 0, s => s
  | fuel + 1, s =>
    let c := s.cursor
    let c := if c.column = 0 && c.rest.head? = some '\ufeff' then c.skip 1 else c
    let c := c.skipWhile fun x => x = ' ' || ((s.inFlow || !s.keyAllowed) && x = '\t')
    let c := match c.rest with
      | '#' :: _ => c.skipWhile (! isBreak ·)
      | _ => c
    match c.rest with
    | x :: _ =>
      if isBreak x then
        skipGap fuel { s with cursor := c.skipBreak, keyAllowed := s.keyAllowed || !s.inFlow }
      else { s with cursor := c }
    | [] => { s with cursor := c }

/-! ## Directives, anchors and tags -/

/-- Reads a number of one to nine digits. -/
def directiveNumber? (c : Cursor) : Option (Nat × Cursor) :=
  let digits := c.rest.takeWhile Char.isDigit
  if digits.isEmpty || 9 < digits.length then none
  else some (digits.foldl (fun n d => 10 * n + (d.toNat - '0'.toNat)) 0, c.skip digits.length)

/-- Reads the handle of a tag: `!`, or a name between two of them. A directive needs the whole
handle. -/
def tagHandle? (directive : Bool) (c : Cursor) : Option (Text × Cursor) :=
  match c.rest with
  | '!' :: s =>
    let name := s.takeWhile isNameChar
    match s.drop name.length with
    | '!' :: _ => some ('!' :: name ++ ['!'], c.skip (name.length + 2))
    | _ =>
      if directive && !name.isEmpty then none
      else some ('!' :: name, c.skip (name.length + 1))
  | _ => none

/-- Whether a character may stand in a tag; the flow marks only in a whole address. -/
def isTagChar (whole : Bool) (c : Char) : Bool :=
  isNameChar c || ";/?:@&=+$.!~*'()".toList.contains c ||
    (whole && (c = ',' || c = '[' || c = ']'))

def escapedByte? : Text → Option (UInt8 × Text)
  | '%' :: a :: b :: s => do return (((← hexDigit? a) * 16 + (← hexDigit? b)).toUInt8, s)
  | _ => none

/-- How many bytes the character takes whose first byte is given. -/
def byteCount? (b : UInt8) : Option Nat :=
  if b < 0x80 then some 1
  else if b &&& 0xE0 = 0xC0 then some 2
  else if b &&& 0xF0 = 0xE0 then some 3
  else if b &&& 0xF8 = 0xF0 then some 4
  else none

/-- Reads `n` escaped bytes that continue a character. -/
def continuation? : Nat → Text → Option (List UInt8)
  | 0, _ => some []
  | n + 1, s => do
    let (b, s) ← escapedByte? s
    if b &&& 0xC0 = 0x80 then return b :: (← continuation? n s) else none

/-- Reads the escaped bytes of a character; only their lead bits need to fit together. -/
def escapedChar? (s : Text) : Option (List UInt8) := do
  let (first, s) ← escapedByte? s
  return first :: (← continuation? ((← byteCount? first) - 1) s)

def tagText? (whole : Bool) : Nat → Tag → Cursor → Option (Tag × Cursor)
  | 0, done, c => some (done, c)
  | fuel + 1, done, c =>
    match c.rest with
    | [] => some (done, c)
    | '%' :: _ =>
      match escapedChar? c.rest with
      | some bytes => tagText? whole fuel (done ++ bytes) (c.skip (3 * bytes.length))
      | none => none
    | x :: _ =>
      if isTagChar whole x then tagText? whole fuel (done ++ Tag.ofText [x]) (c.skip 1)
      else some (done, c)

/-- Reads a tag, for which something must be written. -/
def tagSuffix? (whole : Bool) (c : Cursor) : Option (Tag × Cursor) := do
  let (text, next) ← tagText? whole c.rest.length [] c
  if next.index = c.index then none else return (text.upToZero, next)

def directive? (c : Cursor) : Option (Token × Cursor) := do
  let name := c.rest.takeWhile isNameChar
  let c := c.skip name.length
  if !atGap c.rest then none
  let c := c.skipWhile isSpace
  let (t, c) ←
    if name = "YAML".toList then do
      let (major, c) ← directiveNumber? c
      if c.rest.head? ≠ some '.' then none
      let (minor, c) ← directiveNumber? (c.skip 1)
      pure (Token.versionDirective major minor, c)
    else if name = "TAG".toList then do
      let (handle, c) ← tagHandle? true c
      if !c.rest.head?.any isSpace then none
      let (start, c) ← tagSuffix? true (c.skipWhile isSpace)
      if !atGap c.rest then none
      pure (Token.tagDirective handle start, c)
    else none
  return (t, ← c.finishLine?)

/-- Whether a text may follow the name of an anchor. -/
def endsName : Text → Bool
  | [] => true
  | c :: _ => isSpaceOrBreak c || "?:,]\x7d%@\x60".toList.contains c

/-- Reads the name of an anchor or an alias from behind its indicator. -/
def anchorName? (c : Cursor) : Option (Text × Cursor) :=
  let name := c.rest.takeWhile isNameChar
  let c := c.skip name.length
  if !name.isEmpty && endsName c.rest then some (name, c) else none

/-- Reads a tag. A single `!` is a tag without a handle. -/
def tag? (flow : Bool) (c : Cursor) : Option (Token × Cursor) := do
  let (t, c) ← match c.rest with
    | '!' :: '<' :: _ => do
      let (text, c) ← tagSuffix? true (c.skip 2)
      if c.rest.head? ≠ some '>' then none
      pure (Token.tag [] text, c.skip 1)
    | _ => do
      let (handle, c) ← tagHandle? false c
      if 1 < handle.length && handle.getLast? = some '!' then do
        let (text, c) ← tagSuffix? false c
        pure (Token.tag handle text, c)
      else do
        let (text, c) ← tagText? false c.rest.length (Tag.ofText handle.tail) c
        let text := text.upToZero
        pure (if text.isEmpty then Token.tag [] (Tag.ofText ['!']) else Token.tag ['!'] text, c)
  if atGap c.rest || (flow && c.rest.head? = some ',') then return (t, c) else none

/-! ## Single tokens -/

/-- What a scanner does next: it goes on, or it has reached the end of the text. -/
inductive Progress where
  | more (s : Scanner)
  | finished (ts : List Token)

def indicator (s : Scanner) (n : Nat) (t : Token) : Scanner := (s.push t).skip n

/-- A document marker closes every block. -/
def marker? (s : Scanner) (t : Token) : Option Scanner := do
  let s ← (s.closeBlocks (-1)).dropCandidate?
  return (s.allowKey false).indicator 3 t

def openFlow? (s : Scanner) (t : Token) : Option Scanner := do
  let s ← s.saveCandidate?
  return ({ s with candidates := none :: s.candidates }.allowKey true).indicator 1 t

def closeFlow? (s : Scanner) (t : Token) : Option Scanner := do
  let s ← s.dropCandidate?
  let s := if s.inFlow then { s with candidates := s.candidates.tail } else s
  return (s.allowKey false).indicator 1 t

/-- A comma between the entries of a flow collection. -/
def flowEntry? (s : Scanner) : Option Scanner := do
  return ((← s.dropCandidate?).allowKey true).indicator 1 .flowEntry

/-- A dash in front of an entry of a block sequence. -/
def blockEntry? (s : Scanner) : Option Scanner := do
  if !s.inFlow && !s.keyAllowed then none
  let s ← (s.openBlock s.cursor.column s.count .blockSequence).dropCandidate?
  return (s.allowKey true).indicator 1 .blockEntry

def key? (s : Scanner) : Option Scanner := do
  if !s.inFlow && !s.keyAllowed then none
  let s ← (s.openBlock s.cursor.column s.count .blockMapping).dropCandidate?
  return (s.allowKey (!s.inFlow)).indicator 1 .key

/-- A colon in front of a value. The candidate, if there is one, becomes a key. -/
def value? (s : Scanner) : Option Scanner :=
  match s.candidate with
  | some k =>
    let s := (s.insertAt k.number .key).openBlock k.column k.number .blockMapping
    some (((s.setCandidate none).allowKey false).indicator 1 .value)
  | none =>
    if !s.inFlow && !s.keyAllowed then none
    else
      let s := s.openBlock s.cursor.column s.count .blockMapping
      some ((s.allowKey (!s.inFlow)).indicator 1 .value)

/-- Takes a token that may begin a key. -/
def content? (s : Scanner) (read : Scanner → Option (Token × Cursor)) : Option Scanner := do
  let s := (← s.saveCandidate?).allowKey false
  let (t, c) ← read s
  return { s.push t with cursor := c }

def blockScalar? (s : Scanner) (literal : Bool) : Option Scanner := do
  let s := (← s.dropCandidate?).allowKey true
  let (text, c) ← block? literal s.indent s.cursor
  return { s.push (.scalar text (if literal then .literal else .folded)) with cursor := c }

def plainScalar? (s : Scanner) : Option Scanner := do
  let s ← s.saveCandidate?
  let p ← plain? s.inFlow (s.indent + 1).toNat s.cursor
  return ({ s.push (.scalar p.text .plain) with cursor := p.cursor }).allowKey p.newLine

def beginsPlain (flow : Bool) (c : Char) (s : Text) : Bool :=
  !(isSpaceOrBreak c || "-?:,[]\x7b\x7d#&*!|>'\"%@\x60".toList.contains c) ||
    (c = '-' && !s.head?.any isSpace) || (!flow && (c = '?' || c = ':') && !atGap s)

/-- The end of the text closes every block. -/
def finish? (s : Scanner) : Option Progress := do
  let s ← (s.closeBlocks (-1)).dropCandidate?
  return .finished (s.push .streamEnd).tokens.reverse

/-- Takes a directive, which closes every block. -/
def directiveLine? (s : Scanner) : Option Scanner := do
  let s ← (s.closeBlocks (-1)).dropCandidate?
  let (t, c) ← directive? (s.cursor.skip 1)
  return { (s.push t).allowKey false with cursor := c }

def token? (s : Scanner) (c : Char) (r : Text) : Option Scanner :=
  let flow := s.inFlow
  if s.cursor.column = 0 && c = '%' then s.directiveLine?
  else if s.cursor.atMarker '-' then s.marker? .documentStart
  else if s.cursor.atMarker '.' then s.marker? .documentEnd
  else if c = '[' then s.openFlow? .flowSequence
  else if c = '{' then s.openFlow? .flowMapping
  else if c = ']' then s.closeFlow? .flowSequenceEnd
  else if c = '}' then s.closeFlow? .flowMappingEnd
  else if c = ',' then s.flowEntry?
  else if c = '-' && atGap r then s.blockEntry?
  else if c = '?' && (flow || atGap r) then s.key?
  else if c = ':' && (flow || atGap r) then s.value?
  else if c = '*' then s.content? fun s =>
    (anchorName? (s.cursor.skip 1)).map fun (name, c) => (.alias_ name, c)
  else if c = '&' then s.content? fun s =>
    (anchorName? (s.cursor.skip 1)).map fun (name, c) => (.anchor name, c)
  else if c = '!' then s.content? fun s => tag? s.inFlow s.cursor
  else if c = '|' && !flow then s.blockScalar? true
  else if c = '>' && !flow then s.blockScalar? false
  else if c = '\'' then s.content? fun s =>
    (quoted? false s.cursor).map fun (text, c) => (.scalar text .single, c)
  else if c = '"' then s.content? fun s =>
    (quoted? true s.cursor).map fun (text, c) => (.scalar text .double, c)
  else if beginsPlain flow c r then s.plainScalar?
  else none

/-- Takes what comes next: the gap in front of a token, the blocks it closes, and the token. -/
def next? (s : Scanner) : Option Progress := do
  let s ← (skipGap (s.cursor.rest.length + 1) s).dropStale?
  let s := s.closeBlocks s.cursor.column
  match s.cursor.rest with
  | [] => s.finish?
  | c :: r => return .more (← s.token? c r)

/-- Takes tokens up to the end of the text; every token takes at least one character. -/
def run? : Nat → Scanner → Option (List Token)
  | 0, _ => none
  | fuel + 1, s =>
    match s.next? with
    | some (.more s) => run? fuel s
    | some (.finished ts) => some ts
    | none => none

end Scanner

def tokens? (s : Text) : Option (List Token) :=
  if s.all isAllowed then Scanner.run? (s.length + 1) (.start s) else none

end ExtensionAudit.Yaml
