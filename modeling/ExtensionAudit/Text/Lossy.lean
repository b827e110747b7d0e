import ExtensionAudit.Text.Blank
/-
  Bytes as text. Well-formed UTF-8 is read as what it spells, and every longest
  part of the rest that could begin a character becomes one replacement character.
-/

namespace ExtensionAudit

/-- A character of which some bytes are read: its value so far, the number of bytes missing,
and the range that the next byte must lie in. -/
structure PartialChar where
  value : Nat
  missing : Nat
  low : Nat
  high : Nat

inductive FirstByte where
  | whole (c : Char)
  | part (p : PartialChar)
  | invalid

/-- What a first byte begins. The range of the second byte leaves out long forms, surrogates
and what lies beyond the last character. -/
def firstByte (b : Nat) : FirstByte :=
  if b < 0x80 then .whole (Char.ofNat b)
  else if 0xC2 ≤ b && b ≤ 0xDF then .part ⟨b - 0xC0, 1, 0x80, 0xBF⟩
  else if b = 0xE0 then .part ⟨0, 2, 0xA0, 0xBF⟩
  else if b = 0xED then .part ⟨0xD, 2, 0x80, 0x9F⟩
  else if 0xE1 ≤ b && b ≤ 0xEF then .part ⟨b - 0xE0, 2, 0x80, 0xBF⟩
  else if b = 0xF0 then .part ⟨0, 3, 0x90, 0xBF⟩
  else if 0xF1 ≤ b && b ≤ 0xF3 then .part ⟨b - 0xF0, 3, 0x80, 0xBF⟩
  else if b = 0xF4 then .part ⟨4, 3, 0x80, 0x8F⟩
  else .invalid

/-- The character that stands for bytes that spell none. -/
def replacement : Char := '\ufffd'

/-- Takes the next byte: the characters it completes, and the character it leaves unfinished. -/
def takeByte (pending : Option PartialChar) (b : Nat) : Text × Option PartialChar :=
  let begin (before : Text) : Text × Option PartialChar :=
    match firstByte b with
    | .whole c => (before ++ [c], none)
    | .part p => (before, some p)
    | .invalid => (before ++ [replacement], none)
  match pending with
  | none => begin []
  | some p =>
    if p.low ≤ b && b ≤ p.high then
      let value := p.value * 64 + (b - 0x80)
      if p.missing = 1 then ([Char.ofNat value], none)
      else ([], some ⟨value, p.missing - 1, 0x80, 0xBF⟩)
    else begin [replacement]

/-- The text that bytes spell, behind an unfinished character. -/
def lossyFrom (pending : Option PartialChar) : List UInt8 → Text
  | [] => if pending.isSome then [replacement] else []
  | b :: bs =>
    let (done, pending) := takeByte pending b.toNat
    done ++ lossyFrom pending bs

def lossyText (bytes : ByteArray) : Text := lossyFrom none bytes.toList

end ExtensionAudit
