import ExtensionAudit.Text.Search
/-
  The tokens of a JSON text: brackets, separators, literals, numbers as they are
  written, and strings with their escapes read. A string that escapes half of a
  surrogate pair is a string without a value.

  Main statement: `Token.next?_length` (a token takes at least one character),
  from which the reader of all tokens takes its termination.
-/

namespace ExtensionAudit.Json

inductive Token where
  | openList | closeList | openRecord | closeRecord | colon | comma
  | null
  | bool (b : Bool)
  | number (literal : Text)
  | string (value : Option String)
  deriving DecidableEq, Repr

/-- One piece of a string: a character, or a code unit written as an escape. -/
inductive StringPiece where
  | char (c : Char)
  | unit (n : Nat)
  deriving DecidableEq, Repr

namespace StringPiece

/-- Whether a code unit opens a surrogate pair. -/
def isHigh (n : Nat) : Bool := 0xD800 ≤ n && n < 0xDC00

/-- Whether a code unit closes a surrogate pair. -/
def isLow (n : Nat) : Bool := 0xDC00 ≤ n && n < 0xE000

/-- The text that the pieces spell, unless a surrogate stands alone. -/
def spell : List StringPiece → Option Text
  | [] => some []
  | .char c :: rest => (spell rest).map (c :: ·)
  | .unit n :: .unit m :: rest =>
    if isHigh n then
      if isLow m then
        (spell rest).map (Char.ofNat (0x10000 + (n - 0xD800) * 0x400 + (m - 0xDC00)) :: ·)
      else none
    else if isLow n then none
    else (spell (.unit m :: rest)).map (Char.ofNat n :: ·)
  | .unit n :: rest =>
    if isHigh n || isLow n then none else (spell rest).map (Char.ofNat n :: ·)

end StringPiece

def hexDigit? (c : Char) : Option Nat :=
  if c.isDigit then some (c.toNat - '0'.toNat)
  else if 'a' ≤ c && c ≤ 'f' then some (c.toNat - 'a'.toNat + 10)
  else if 'A' ≤ c && c ≤ 'F' then some (c.toNat - 'A'.toNat + 10)
  else none

/-- The value of four hexadecimal digits. -/
def hexUnit? (a b c d : Char) : Option Nat := do
  return (((← hexDigit? a) * 16 + (← hexDigit? b)) * 16 + (← hexDigit? c)) * 16 + (← hexDigit? d)

def escaped? : Char → Option Char
  | '"' => some '"'
  | '\\' => some '\\'
  | '/' => some '/'
  | 'b' => some '\x08'
  | 'f' => some '\x0c'
  | 'n' => some '\n'
  | 'r' => some '\r'
  | 't' => some '\t'
  | _ => none

/-- Reads a string from behind its opening quote; `seen` holds the pieces read, last first. -/
def stringPieces? (seen : List StringPiece) : Text → Option (List StringPiece × Text)
  | [] => none
  | '"' :: s => some (seen.reverse, s)
  | '\\' :: 'u' :: a :: b :: c :: d :: s =>
    match hexUnit? a b c d with
    | some n => stringPieces? (.unit n :: seen) s
    | none => none
  | '\\' :: c :: s =>
    match escaped? c with
    | some c => stringPieces? (.char c :: seen) s
    | none => none
  | c :: s => if c.toNat < 0x20 then none else stringPieces? (.char c :: seen) s

theorem stringPieces?_length {seen pieces : List StringPiece} {s r : Text}
    (h : stringPieces? seen s = some (pieces, r)) : r.length ≤ s.length := by
  fun_induction stringPieces? seen s with
  | case1 => cases h
  | case2 => simp only [Option.some.injEq, Prod.mk.injEq] at h; simp [← h.2]
  | case3 seen a b c d s n hn ih => have := ih h; simp; omega
  | case4 => cases h
  | case5 seen c s hc c' hc' ih => have := ih h; simp; omega
  | case6 => cases h
  | case7 => cases h
  | case8 seen c s _ _ _ _ ih => have := ih h; simp; omega

def isDigits (s : Text) : Bool := !s.isEmpty && s.all Char.isDigit

def isExponent : Text → Bool
  | [] => true
  | e :: s =>
    (e = 'e' || e = 'E') && isDigits (match s with
      | '+' :: r => r
      | '-' :: r => r
      | r => r)

/-- Whether a text is the fraction and exponent of a number, or a part of them. -/
def isFraction : Text → Bool
  | '.' :: s => !(s.takeWhile Char.isDigit).isEmpty && isExponent (s.dropWhile Char.isDigit)
  | s => isExponent s

/-- Whether a text is a number without its sign: no zero stands in front of other digits. -/
def isUnsigned (s : Text) : Bool :=
  match s with
  | '0' :: r => isFraction r
  | s => !(s.takeWhile Char.isDigit).isEmpty && isFraction (s.dropWhile Char.isDigit)

def isNumber : Text → Bool
  | '-' :: s => isUnsigned s
  | s => isUnsigned s

def isNumberChar (c : Char) : Bool :=
  c.isDigit || c = '-' || c = '+' || c = '.' || c = 'e' || c = 'E'

/-- Whether a character may stand between tokens. -/
def isGap (c : Char) : Bool := c = ' ' || c = '\n' || c = '\r' || c = '\t'

namespace Token

/-- The words that are tokens, without their first letters. -/
def word? (c : Char) (s : Text) : Option (Token × Text) :=
  match c with
  | 't' => (Text.strip? ['r', 'u', 'e'] s).map (.bool true, ·)
  | 'f' => (Text.strip? ['a', 'l', 's', 'e'] s).map (.bool false, ·)
  | 'n' => (Text.strip? ['u', 'l', 'l'] s).map (.null, ·)
  | _ => none

def next? (c : Char) (s : Text) : Option (Token × Text) :=
  match c with
  | '[' => some (.openList, s)
  | ']' => some (.closeList, s)
  | '{' => some (.openRecord, s)
  | '}' => some (.closeRecord, s)
  | ':' => some (.colon, s)
  | ',' => some (.comma, s)
  | '"' =>
    match stringPieces? [] s with
    | some (pieces, r) => some (.string ((StringPiece.spell pieces).map String.ofList), r)
    | none => none
  | c =>
    if isNumberChar c then
      if isNumber (c :: s.takeWhile isNumberChar) then
        some (.number (c :: s.takeWhile isNumberChar), s.dropWhile isNumberChar)
      else none
    else word? c s

theorem strip?_length {front s r : Text} (h : Text.strip? front s = some r) :
    r.length ≤ s.length := by
  rw [← Text.strip?_append h]; simp

theorem word?_length {c : Char} {s r : Text} {t : Token} (h : word? c s = some (t, r)) :
    r.length ≤ s.length := by
  unfold word? at h
  split at h <;> first
    | (simp only [Option.map_eq_some_iff, Prod.mk.injEq] at h
       obtain ⟨r', hr, -, rfl⟩ := h
       exact strip?_length hr)
    | cases h

theorem next?_length {c : Char} {s r : Text} {t : Token} (h : next? c s = some (t, r)) :
    r.length ≤ s.length := by
  unfold next? at h
  split at h
  iterate 6 simp_all
  · split at h
    · next hp =>
      simp only [Option.some.injEq, Prod.mk.injEq] at h
      obtain ⟨-, rfl⟩ := h
      exact stringPieces?_length hp
    · cases h
  · split at h
    · split at h
      · simp only [Option.some.injEq, Prod.mk.injEq] at h
        obtain ⟨-, rfl⟩ := h
        exact (List.dropWhile_sublist _).length_le
      · cases h
    · exact word?_length h

end Token

/-- Reads all tokens; `seen` holds the tokens read, last first. -/
def tokensOnto (seen : List Token) (s : Text) : Option (List Token) :=
  match s with
  | [] => some seen.reverse
  | c :: s =>
    if isGap c then tokensOnto seen s
    else
      match h : Token.next? c s with
      | none => none
      | some (t, r) =>
        have : r.length ≤ s.length := Token.next?_length h
        tokensOnto (t :: seen) r
  termination_by s.length

def tokens? (s : Text) : Option (List Token) := tokensOnto [] s

end ExtensionAudit.Json
