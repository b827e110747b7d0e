import ExtensionAudit.Text.Digit
import ExtensionAudit.Text.Search
/-
  The version constant in the source of the platform kernel: the name
  `ONLISHOP_FALLBACK_VERSION`, an equals sign and a quoted version, of which the
  major and minor numbers are read.
-/

namespace ExtensionAudit.Kernel

def constant : Text := "ONLISHOP_FALLBACK_VERSION".toList

/-- Whether a character may stand in a version after its minor number. -/
def isTailChar (c : Char) : Bool := c.isAlphanum || c = '.' || c = '-'

def beginsWithQuote : Text → Bool
  | c :: _ => c = '\'' || c = '"'
  | [] => false

/-- Drops a `v` in front. -/
def dropMark : Text → Text
  | 'v' :: s => s
  | s => s

/-- What may stand between the minor number and the closing quote. -/
def dropTail : Text → Text
  | '.' :: s => s.dropWhile isTailChar
  | s => s

/-- The digits of the major and minor numbers of an assignment to the constant, read from
behind its name. -/
def assigned? (s : Text) : Option (Text × Text) :=
  match Text.trimStart s with
  | '=' :: s =>
    let s := Text.trimStart s
    if beginsWithQuote s then
      let s := dropMark s.tail
      let major := s.takeWhile isDecimal
      match s.dropWhile isDecimal with
      | '.' :: s =>
        let minor := s.takeWhile isDecimal
        if !major.isEmpty && !minor.isEmpty &&
            beginsWithQuote (dropTail (s.dropWhile isDecimal)) then
          some (major, minor)
        else none
      | _ => none
    else none
  | _ => none

/-- The digits of the first assignment in a source. -/
def digits? : Text → Option (Text × Text)
  | [] => none
  | c :: s =>
    match (Text.strip? constant (c :: s)).bind assigned? with
    | some found => some found
    | none => digits? s

/-- The major and minor numbers of the first assignment, when both are in range. -/
def version? (source : String) : Option (Nat × Nat) :=
  match digits? source.toList with
  | none => none
  | some (major, minor) =>
    match segment? major, segment? minor with
    | some m, some n => some (m, n)
    | _, _ => none

end ExtensionAudit.Kernel
