import ExtensionAudit.Json.Strict
/-
  What is wrong with a JSON text that cannot be read strictly, and where. The text is
  read byte by byte, and each byte as the character of its number. What may come
  next is told by the lists and records that are open and by the token that has
  begun; the first byte that may not come, or the end of the text where more has to
  come, is the fault.
-/

namespace ExtensionAudit.Json

inductive FaultCause where
  | endInValue
  | endInString
  | endInList
  | endInRecord
  | noValue
  | noWord
  | noColon
  | noItemSeparator
  | noMemberSeparator
  | keyWithoutQuote
  | trailingComma
  | trailingText
  | badNumber
  | numberTooLarge
  | badEscape
  | loneSurrogate
  | missingSurrogate
  | controlCharacter
  | tooDeep
  deriving DecidableEq, Repr

def FaultCause.message : FaultCause → String
  | .endInValue => "EOF while parsing a value"
  | .endInString => "EOF while parsing a string"
  | .endInList => "EOF while parsing a list"
  | .endInRecord => "EOF while parsing an object"
  | .noValue => "expected value"
  | .noWord => "expected ident"
  | .noColon => "expected \x60:\x60"
  | .noItemSeparator => "expected \x60,\x60 or \x60]\x60"
  | .noMemberSeparator => "expected \x60,\x60 or \x60\x7d\x60"
  | .keyWithoutQuote => "key must be a string"
  | .trailingComma => "trailing comma"
  | .trailingText => "trailing characters"
  | .badNumber => "invalid number"
  | .numberTooLarge => "number out of range"
  | .badEscape => "invalid escape"
  | .loneSurrogate => "lone leading surrogate in hex escape"
  | .missingSurrogate => "unexpected end of hex escape"
  | .controlCharacter => "control character (\\u0000-\\u001F) found while parsing a string"
  | .tooDeep => "recursion limit exceeded"

/-- Where a scan stands inside a string: between characters, behind a backslash, among the four
digits of an escape, or in front of one of the two characters that open the second escape of a
surrogate pair. The digits read are kept last first; `high` tells whether they spell the second
half of a pair. -/
inductive StringPart where
  | plain
  | escape
  | digits (high : Bool) (read : Text)
  | secondBackslash
  | secondLetter
  deriving DecidableEq, Repr

/-- Where a scan stands inside a number. Of an exponent it knows the sign and the value. -/
inductive NumberPart where
  | sign
  | zero
  | whole
  | point
  | fraction
  | exponent
  | exponentSign (negative : Bool)
  | exponentDigits (negative : Bool) (value : Nat)
  deriving DecidableEq, Repr

/-- What a scan awaits, or the token that it is in. The characters of a number are kept last
first, and of a word those that are left. -/
inductive Awaited where
  | value
  | firstItem
  | nextItem
  | firstKey
  | nextKey
  | colon
  | separator
  | word (rest : Text)
  | string (isKey : Bool) (part : StringPart)
  | number (part : NumberPart) (literal : Text)
  deriving DecidableEq, Repr

inductive Bracket where
  | list
  | record
  deriving DecidableEq, Repr

/-- A scan of a text: the brackets that are open, the innermost first, and what it awaits. -/
structure Scan where
  opened : List Bracket
  awaited : Awaited
  deriving DecidableEq, Repr

/-- Why a scan stops, and whether the character that stops it counts as read. -/
structure Stop where
  cause : FaultCause
  read : Bool
  deriving DecidableEq, Repr

namespace Scan

abbrev Step := Except Stop Scan

def stop (cause : FaultCause) : Step := .error ⟨cause, true⟩

def awaiting (r : Scan) (e : Awaited) : Step := .ok { r with awaited := e }

/-- Opens a bracket. -/
def enter (r : Scan) (b : Bracket) (e : Awaited) : Step :=
  if r.opened.length < depthLimit then .ok ⟨b :: r.opened, e⟩ else stop .tooDeep

/-- Closes the innermost bracket. -/
def leave (r : Scan) : Step := .ok ⟨r.opened.tail, .separator⟩

def valueStep (r : Scan) (c : Char) : Step :=
  match c with
  | 'n' => r.awaiting (.word ['u', 'l', 'l'])
  | 't' => r.awaiting (.word ['r', 'u', 'e'])
  | 'f' => r.awaiting (.word ['a', 'l', 's', 'e'])
  | '"' => r.awaiting (.string false .plain)
  | '[' => r.enter .list .firstItem
  | '{' => r.enter .record .firstKey
  | '-' => r.awaiting (.number .sign ['-'])
  | '0' => r.awaiting (.number .zero ['0'])
  | c => if c.isDigit then r.awaiting (.number .whole [c]) else stop .noValue

def separatorStep (r : Scan) (c : Char) : Step :=
  match r.opened with
  | [] => stop .trailingText
  | .list :: _ =>
    if c = ',' then r.awaiting .nextItem
    else if c = ']' then r.leave
    else stop .noItemSeparator
  | .record :: _ =>
    if c = ',' then r.awaiting .nextKey
    else if c = '}' then r.leave
    else stop .noMemberSeparator

/-- What follows four digits of an escape that spell a code unit. -/
def unitStep (r : Scan) (isKey high : Bool) (n : Nat) : Step :=
  if high then
    if StringPiece.isLow n then r.awaiting (.string isKey .plain) else stop .loneSurrogate
  else if StringPiece.isLow n then stop .loneSurrogate
  else if StringPiece.isHigh n then r.awaiting (.string isKey .secondBackslash)
  else r.awaiting (.string isKey .plain)

def stringStep (r : Scan) (isKey : Bool) (c : Char) : StringPart → Step
  | .plain =>
    if c = '"' then r.awaiting (if isKey then .colon else .separator)
    else if c = '\\' then r.awaiting (.string isKey .escape)
    else if c.toNat < 0x20 then stop .controlCharacter
    else r.awaiting (.string isKey .plain)
  | .escape =>
    if c = 'u' then r.awaiting (.string isKey (.digits false []))
    else if (escaped? c).isSome then r.awaiting (.string isKey .plain)
    else stop .badEscape
  | .digits high [z, y, x] =>
    match hexUnit? x y z c with
    | some n => r.unitStep isKey high n
    | none => stop .badEscape
  | .digits high read => r.awaiting (.string isKey (.digits high (c :: read)))
  | .secondBackslash =>
    if c = '\\' then r.awaiting (.string isKey .secondLetter) else stop .missingSurrogate
  | .secondLetter =>
    if c = 'u' then r.awaiting (.string isKey (.digits true [])) else stop .missingSurrogate

/-- The greatest exponent that is read to its end. -/
def exponentLimit : Nat := 2147483647

/-- Whether a number behind whose exponent a digit stands is too large whatever follows. -/
def isHopeless (negative : Bool) (value : Nat) (literal : Text) : Bool :=
  exponentLimit < value && !negative && (scientific literal.reverse).1 ≠ 0

def exponentStep (r : Scan) (negative : Bool) (value : Nat) (literal : Text) (c : Char) : Step :=
  let value := min (withDigit value c) (exponentLimit + 1)
  if isHopeless negative value literal then stop .numberTooLarge
  else r.awaiting (.number (.exponentDigits negative value) (c :: literal))

def numberEnd (r : Scan) (literal : Text) (c : Char) : Step :=
  if !isFinite literal.reverse then .error ⟨.numberTooLarge, false⟩
  else if isGap c then r.awaiting .separator
  else r.separatorStep c

def numberStep (r : Scan) (literal : Text) (c : Char) (part : NumberPart) : Step :=
  let goOn (part : NumberPart) : Step := r.awaiting (.number part (c :: literal))
  let exponentOr (other : Step) : Step := if c = 'e' || c = 'E' then goOn .exponent else other
  match part with
  | .sign => if c = '0' then goOn .zero else if c.isDigit then goOn .whole else stop .badNumber
  | .zero =>
    if c.isDigit then stop .badNumber
    else if c = '.' then goOn .point
    else exponentOr (r.numberEnd literal c)
  | .whole =>
    if c.isDigit then goOn .whole
    else if c = '.' then goOn .point
    else exponentOr (r.numberEnd literal c)
  | .point => if c.isDigit then goOn .fraction else stop .badNumber
  | .fraction => if c.isDigit then goOn .fraction else exponentOr (r.numberEnd literal c)
  | .exponent =>
    if c = '+' || c = '-' then goOn (.exponentSign (c = '-'))
    else if c.isDigit then r.exponentStep false 0 literal c
    else stop .badNumber
  | .exponentSign negative =>
    if c.isDigit then r.exponentStep negative 0 literal c else stop .badNumber
  | .exponentDigits negative value =>
    if c.isDigit then r.exponentStep negative value literal c else r.numberEnd literal c

def betweenStep (r : Scan) (c : Char) : Step :=
  match r.awaited with
  | .firstItem => if c = ']' then r.leave else r.valueStep c
  | .nextItem => if c = ']' then stop .trailingComma else r.valueStep c
  | .firstKey =>
    if c = '}' then r.leave
    else if c = '"' then r.awaiting (.string true .plain)
    else stop .keyWithoutQuote
  | .nextKey =>
    if c = '}' then stop .trailingComma
    else if c = '"' then r.awaiting (.string true .plain)
    else stop .keyWithoutQuote
  | .colon => if c = ':' then r.awaiting .value else stop .noColon
  | .separator => r.separatorStep c
  | _ => r.valueStep c

/-- Reads a character. -/
def step (r : Scan) (c : Char) : Step :=
  match r.awaited with
  | .word [] => stop .noWord
  | .word [w] => if c = w then r.awaiting .separator else stop .noWord
  | .word (w :: rest) => if c = w then r.awaiting (.word rest) else stop .noWord
  | .string isKey part => r.stringStep isKey c part
  | .number part literal => r.numberStep literal c part
  | _ => if isGap c then .ok r else r.betweenStep c

def missingBehindValue? (r : Scan) : Option FaultCause :=
  r.opened.head?.map fun
    | .list => .endInList
    | .record => .endInRecord

/-- What is missing when the text ends. -/
def missing? (r : Scan) : Option FaultCause :=
  let number (literal : Text) : Option FaultCause :=
    if isFinite literal.reverse then r.missingBehindValue? else some .numberTooLarge
  match r.awaited with
  | .firstItem => some .endInList
  | .firstKey => some .endInRecord
  | .colon => some .endInRecord
  | .separator => r.missingBehindValue?
  | .string _ _ => some .endInString
  | .number .zero literal => number literal
  | .number .whole literal => number literal
  | .number .fraction literal => number literal
  | .number (.exponentDigits _ _) literal => number literal
  | _ => some .endInValue

/-- The first fault of the characters that follow `count` others, and the number of characters
read up to it. -/
def fault? (r : Scan) (count : Nat) : Text → Option (FaultCause × Nat)
  | [] => r.missing?.map (·, count)
  | c :: s =>
    match r.step c with
    | .error stop => some (stop.cause, if stop.read then count + 1 else count)
    | .ok r => r.fault? (count + 1) s

end Scan

def byteChars (s : String) : Text := s.toUTF8.toList.map fun b => Char.ofNat b.toNat

/-- The first fault of a text, and the number of bytes read up to it. -/
def fault? (s : String) : Option (FaultCause × Nat) :=
  Scan.fault? ⟨[], .value⟩ 0 (byteChars s)

/-- What is wrong with a text, with the line and the column up to which it is read; the column
counts bytes. -/
def explanation (s : String) : String :=
  match fault? s with
  | some (cause, count) =>
    let front := (byteChars s).take count
    cause.message ++ " at line " ++ toString (front.count '\n' + 1) ++ " column " ++
      toString (front.reverse.takeWhile (· != '\n')).length
  | none => ""

example : explanation "[1,\n 2,]" = "trailing comma at line 2 column 4" := by decide +kernel

end ExtensionAudit.Json
