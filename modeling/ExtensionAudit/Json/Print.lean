import ExtensionAudit.Json.Value
/-
  Writing JSON values: members and items on lines of their own, two spaces further
  in than what holds them, and empty lists and records on one line.
-/

namespace ExtensionAudit.Json

def fourDigits (n : Nat) : Text :=
  let digits := Nat.toDigits 16 n
  List.replicate (4 - digits.length) '0' ++ digits

def escapedChar (c : Char) : Text :=
  match c with
  | '"' => ['\\', '"']
  | '\\' => ['\\', '\\']
  | '\n' => ['\\', 'n']
  | '\r' => ['\\', 'r']
  | '\t' => ['\\', 't']
  | '\x08' => ['\\', 'b']
  | '\x0c' => ['\\', 'f']
  | c => if c.toNat < 0x20 then '\\' :: 'u' :: fourDigits c.toNat else [c]

def quotedString (s : String) : Text := '"' :: s.toList.flatMap escapedChar ++ ['"']

/-- The end of a line and the space in front of the next one. -/
def newLine (margin : Nat) : Text := '\n' :: List.replicate margin ' '

mutual

/-- A value whose further lines begin at a margin. -/
def printed (margin : Nat) : Value → Text
  | .null => "null".toList
  | .bool b => (if b then "true" else "false").toList
  | .number literal => literal
  | .string value => quotedString (value.getD "")
  | .list [] => ['[', ']']
  | .list (v :: rest) =>
    '[' :: newLine (margin + 2) ++ printed (margin + 2) v ++ printedItems (margin + 2) rest ++
      newLine margin ++ [']']
  | .record [] => ['\x7b', '\x7d']
  | .record ((name, v) :: rest) =>
    '\x7b' :: newLine (margin + 2) ++ printedMember (margin + 2) name v ++
      printedMembers (margin + 2) rest ++ newLine margin ++ ['\x7d']

def printedItems (margin : Nat) : List Value → Text
  | [] => []
  | v :: rest => ',' :: newLine margin ++ printed margin v ++ printedItems margin rest

def printedMember (margin : Nat) (name : Option String) (v : Value) : Text :=
  quotedString (name.getD "") ++ ':' :: ' ' :: printed margin v

def printedMembers (margin : Nat) : List (Option String × Value) → Text
  | [] => []
  | (name, v) :: rest =>
    ',' :: newLine margin ++ printedMember margin name v ++ printedMembers margin rest

end

namespace Value

def ofString (s : String) : Value := .string (some s)

def ofNat (n : Nat) : Value := .number (toString n).toList

def ofOption {α : Type} (f : α → Value) : Option α → Value
  | some a => f a
  | none => .null

def ofMembers (members : List (String × Value)) : Value :=
  .record (members.map fun (name, v) => (some name, v))

def print (v : Value) : String := String.ofList (printed 0 v)

end Value

end ExtensionAudit.Json
