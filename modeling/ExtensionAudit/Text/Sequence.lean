import ExtensionAudit.Text.Columns
/-
  How many columns a text takes on a terminal. It is the sum over its characters,
  but for sequences that are shown as one: a picture with its selector, skin tone or
  keycap, pictures that are joined to one, and some pairs of letters. What a
  character adds depends on what stands behind it, so a text is read from its end.
-/

namespace ExtensionAudit.Text

/-- A letter, or the end of a sequence of letters, that the character in front of it may be joined
with. -/
inductive Tail
  | alef
  | lamed
  | coengLetter
  | ya
  | vowelAndYa
  | tifinagh
  | joinedTifinagh
  | toneLetter
  | orkhonI
deriving DecidableEq

/-- The end of a picture that a joiner ties to the picture behind it. Of a flag it is as many
letters as have been read, of a region's flag the tags. -/
inductive Tied
  | joiner
  | keycap
  | indicator
  | evenIndicators
  | oddIndicators
  | tag (letters digits : Nat)
deriving DecidableEq

/-- What stands behind a character, as far as the character may be shown together with it. -/
inductive Follower
  | other
  | lineFeed
  | tone
  | indicator
  | indicators
  | pictograph
  | tied (part : Tied)
  | vowelE
  | vowelAi
  | letter (tail : Tail) (joined : Bool)
deriving DecidableEq

/-- What a variation selector asks for: a sign, a picture, or a wide quotation mark. -/
inductive Selector
  | sign
  | picture
  | wideMark
deriving DecidableEq

/-- What stands behind a character: a selector, and what it may be shown together with. -/
structure Behind where
  selector : Option Selector
  follower : Follower
deriving DecidableEq

/-! ## Letters -/

/-- The Khmer letters that can be written below another one. -/
def coengRanges : List (Nat × Nat) :=
  [(0x1780, 0x1782), (0x1784, 0x1787), (0x1789, 0x178C), (0x178E, 0x1793), (0x1795, 0x1798),
    (0x179B, 0x179D), (0x17A0, 0x17A0), (0x17A2, 0x17A2), (0x17A7, 0x17A7), (0x17AB, 0x17AC),
    (0x17AF, 0x17AF)]

/-- The Arabic letters of the shape of an alef. -/
def alefRanges : List (Nat × Nat) :=
  [(0x622, 0x623), (0x625, 0x625), (0x627, 0x627), (0x671, 0x673), (0x675, 0x675), (0x773, 0x774),
    (0x870, 0x882)]

/-- The Arabic letters of the shape of a lam. -/
def lamRanges : List (Nat × Nat) :=
  [(0x644, 0x644), (0x6B5, 0x6B8), (0x76A, 0x76A), (0x8A6, 0x8A6), (0x8C7, 0x8C7)]

def isTifinagh (c : Char) : Bool := isInRanges [(0x2D31, 0x2D65), (0x2D6F, 0x2D6F)] c.toNat

/-- The format characters that end a joined group of Arabic letters. -/
def unjoinedRanges : List (Nat × Nat) :=
  [(0x605, 0x605), (0x890, 0x891), (0x8E2, 0x8E2), (0x180E, 0x180E), (0x200C, 0x200D),
    (0x2066, 0x2069)]

/-- Whether Arabic letters are joined across a character. -/
def isArabicTransparent (c : Char) : Bool :=
  (isMark c || isNewMark c || isFormat c) && charColumns c == 0 &&
    !isInRanges unjoinedRanges c.toNat

/-- Whether a character is a mark that does not show: it parts no letters. -/
def isHiddenMark (c : Char) : Bool := isMark c && isIgnorable c

/-- What a character is for the one in front of it, if it is a letter. -/
def Tail.ofChar? (c : Char) : Option Tail :=
  if isInRanges alefRanges c.toNat then some .alef
  else if c = '\u05DC' then some .lamed
  else if isInRanges coengRanges c.toNat then some .coengLetter
  else if c = '\u1A10' then some .ya
  else if isTifinagh c then some .tifinagh
  else if c = '\uA4FC' || c = '\uA4FD' then some .toneLetter
  else if c.toNat = 0x10C03 then some .orkhonI
  else none

/-- The letter in front of another one that it is shown together with: the columns it adds, and
what follows the next one. -/
def Tail.meet? (t : Tail) (joined : Bool) (c : Char) : Option (Int × Follower) :=
  match t with
  | .alef =>
    if isInRanges lamRanges c.toNat then some (0, .other)
    else if isArabicTransparent c then some (0, .letter .alef joined) else none
  | .lamed => if joined && c = '\u05D0' then some (0, .other) else none
  | .coengLetter => if c = '\u17D2' then some (-1, .other) else none
  | .ya => if joined && c = '\u1A17' then some (0, .letter .vowelAndYa true) else none
  | .vowelAndYa => if c = '\u1A15' then some (0, .other) else none
  | .tifinagh =>
    if c = '\u2D7F' then some (1, .letter .joinedTifinagh true)
    else if joined && isTifinagh c then some (0, .other) else none
  | .joinedTifinagh => if isTifinagh c then some (-1, .other) else none
  | .toneLetter => if 0xA4F8 ≤ c.toNat && c.toNat ≤ 0xA4FB then some (0, .other) else none
  | .orkhonI => if joined && c.toNat = 0x10C32 then some (0, .other) else none

/-- A character in front of a letter, if they are shown together. `joined` says that a joiner
stands between them; joiners and hidden marks part no letters, outside the Arabic script. -/
def Tail.step? (t : Tail) (joined : Bool) (c : Char) : Option (Int × Follower) :=
  if t ≠ .alef && c = '\u200D' then some (0, .letter t true)
  else if t ≠ .alef && isHiddenMark c then some (0, .letter t joined)
  else t.meet? joined c

/-! ## Pictures -/

def isTagLetter (c : Char) : Bool := 0xE0061 ≤ c.toNat && c.toNat ≤ 0xE007A

def isTagDigit (c : Char) : Bool := 0xE0030 ≤ c.toNat && c.toNat ≤ 0xE0039

/-- Whether so many tags name a region: three to six letters, or three digits with letters
behind them. -/
def namesRegion (letters digits : Nat) : Bool := digits = 3 || (digits = 0 && 3 ≤ letters)

/-- A character in front of a joiner and a picture, or of the end of what the joiner ties to it. -/
def Tied.step? (t : Tied) (c : Char) : Option (Int × Follower) :=
  match t with
  | .joiner =>
    if c = '\u20E3' then some (0, .tied .keycap)
    else if isRegionalIndicator c then some (1, .tied .indicator)
    else if isSkinTone c then some (0, .tone)
    else if c.toNat = 0xE007F then some (0, .tied (.tag 0 0))
    else if isPictograph c then some (0, .pictograph) else none
  | .keycap => none
  | .indicator => if isRegionalIndicator c then some (-1, .tied .evenIndicators) else none
  | .evenIndicators =>
    if c = '\u200D' then some (0, .tied .joiner)
    else if isRegionalIndicator c then some (3, .tied .oddIndicators) else none
  | .oddIndicators =>
    if c = '\u200D' then some (0, .tied .joiner)
    else if isRegionalIndicator c then some (-1, .tied .evenIndicators) else none
  | .tag letters digits =>
    if isTagLetter c && digits = 0 && letters < 6 then some (0, .tied (.tag (letters + 1) 0))
    else if isTagDigit c && digits < 3 && (digits ≠ 0 || letters ≤ 4) then
      some (0, .tied (.tag letters (digits + 1)))
    else if c.toNat = 0x1F3F4 && namesRegion letters digits then some (0, .pictograph) else none

/-! ## Characters in front of others -/

def Follower.step? (f : Follower) (c : Char) : Option (Int × Follower) :=
  match f with
  | .other => none
  | .lineFeed => none
  | .tone =>
    if isToned c then some (0, .pictograph)
    else if c = '\u200D' then some (0, .tied .joiner) else none
  | .indicator => if isRegionalIndicator c then some (1, .indicators) else none
  | .indicators =>
    if isRegionalIndicator c then some (1, .indicators)
    else if c = '\u200D' then some (0, .tied .joiner) else none
  | .pictograph => if c = '\u200D' then some (0, .tied .joiner) else none
  | .tied part => part.step? c
  | .vowelE =>
    if c.toNat = 0x16D63 || c.toNat = 0x16D69 then some (0, .other)
    else if c.toNat = 0x16D67 then some (0, .vowelAi)
    else if c.toNat = 0x16D68 then some (1, .vowelE) else none
  | .vowelAi => if c.toNat = 0x16D63 then some (0, .other) else none
  | .letter tail joined => tail.step? joined c

/-- What a character is for the one in front of it, when it is shown on its own. -/
def Follower.ofChar (c : Char) : Follower :=
  if c = '\n' then .lineFeed
  else if c.toNat < 0xA1 then .other
  else if isRegionalIndicator c then .indicator
  else if isSkinTone c then .tone
  else if c.toNat = 0x16D67 then .vowelE
  else if c.toNat = 0x16D68 then .vowelAi
  else if isPictograph c then .pictograph
  else ((Tail.ofChar? c).map fun t => Follower.letter t false).getD .other

/-- Whether a selector is passed over: letters are shown together across any of them, and the
joiner also ties what ends with the one for a picture. -/
def Follower.passes (f : Follower) (s : Selector) : Bool :=
  match f with
  | .letter _ _ => true
  | .tied .joiner => s = .picture
  | .tied .keycap => s = .picture
  | _ => false

def Selector.ofChar? (c : Char) : Option Selector :=
  if c = '\uFE0E' then some .sign
  else if c = '\uFE0F' then some .picture
  else if c = '\uFE01' then some .wideMark
  else none

/-- The quotation marks that have a wide form. -/
def isSlantedMark (c : Char) : Bool :=
  c = '\u2018' || c = '\u2019' || c = '\u201C' || c = '\u201D'

namespace Behind

/-- The end of the text. -/
def nothing : Behind := ⟨none, .other⟩

/-- A character that is what the selector behind it asks for, and the columns it then takes. -/
def select? (b : Behind) (c : Char) : Option (Int × Behind) :=
  match b.selector with
  | some .picture =>
    if hasEitherStyle c then
      some (if b.follower.passes .picture && !b.follower.passes .sign then 0 else 2,
        ⟨none, .pictograph⟩)
    else none
  | some .sign => if isNarrowAsSign c then some (1, nothing) else none
  | some .wideMark => if isSlantedMark c then some (2, nothing) else none
  | none => none

/-- What stands behind a character that the selector does not concern. -/
def unselected (b : Behind) : Follower :=
  if b.selector.isSome && !b.follower.passes .sign then .other else b.follower

/-- A character that no selector concerns: the columns it adds, and what stands behind the next
one. -/
def stepUnselected (f : Follower) (c : Char) : Int × Behind :=
  if c.toNat < 0xA1 then (if c = '\r' && f = .lineFeed then 0 else 1, ⟨none, .ofChar c⟩)
  else if let some s := Selector.ofChar? c then (0, ⟨some s, if f.passes s then f else .other⟩)
  else match f.step? c with
    | some (n, next) => (n, ⟨none, next⟩)
    | none => (charColumns c, ⟨none, .ofChar c⟩)

/-- The columns that a character adds, and what stands behind the next one. -/
def step (b : Behind) (c : Char) : Int × Behind :=
  match b.select? c with
  | some answer => answer
  | none => stepUnselected b.unselected c

end Behind

/-- The columns that a text takes, read from its end, and how it begins. -/
def columnsBehind (s : Text) : Int × Behind :=
  s.foldr (fun c (n, b) => ((b.step c).1 + n, (b.step c).2)) (0, .nothing)

def columns (s : Text) : Nat := s.columnsBehind.1.toNat

/-- A flag and a family take the room of one picture each. -/
example : columns ([0x1F1E9, 0x1F1EA].map Char.ofNat) = 2 ∧
    columns ([0x1F468, 0x200D, 0x1F469, 0x200D, 0x1F466].map Char.ofNat) = 2 := by
  decide +kernel

end ExtensionAudit.Text
