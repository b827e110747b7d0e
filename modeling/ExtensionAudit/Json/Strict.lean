import ExtensionAudit.Json.Value
/-
  The strict reading of a JSON text, which also refuses what has no place in
  memory: numbers beyond the largest double, strings with half of a surrogate
  pair, and more than 127 lists and records inside one another.
-/

namespace ExtensionAudit.Json

/-- The greatest number of lists and records inside one another. -/
def depthLimit : Nat := 127

/-! ## The size of a number -/

/-- The least whole number that no double reaches. -/
def doubleLimit : Nat := Nat.pow 2 1024

/-- The least number of digits taken together that is not kept. -/
def significandLimit : Nat := Nat.pow 2 64

/-- A whole number rounded to 53 binary digits; a half goes to the even neighbour. -/
def roundedToDouble (n : Nat) : Nat :=
  let unit := Nat.pow 2 (n.log2 - 52)
  let (below, left) := (n / unit, n % unit)
  let up := unit < 2 * left || (unit = 2 * left && below % 2 = 1)
  (if up then below + 1 else below) * unit

def withDigit (n : Nat) (c : Char) : Nat := 10 * n + (c.toNat - '0'.toNat)

def digitsValue (s : Text) : Nat := s.foldl withDigit 0

/-- Reads digits in front of a point behind those of `n`, up to the first that does not fit: the
digits kept, and how many are not. -/
def keptWhole (n : Nat) : Text → Nat × Nat
  | [] => (n, 0)
  | c :: s =>
    if withDigit n c < significandLimit then keptWhole (withDigit n c) s else (n, s.length + 1)

/-- Reads digits behind a point behind those of `n`, up to the first that does not fit: the digits
kept, and how many of them stood behind the point. -/
def keptFraction (n : Nat) : Text → Nat × Nat
  | [] => (n, 0)
  | c :: s =>
    if withDigit n c < significandLimit then
      ((keptFraction (withDigit n c) s).1, (keptFraction (withDigit n c) s).2 + 1)
    else (n, 0)

/-- The exponent of a number, read from behind its digits. -/
def writtenExponent : Text → Int
  | _ :: '-' :: s => - (digitsValue s : Int)
  | _ :: '+' :: s => digitsValue s
  | _ :: s => digitsValue s
  | [] => 0

/-- The digits of a number that are kept, and the power of ten that belongs to them. -/
def scientific (literal : Text) : Nat × Int :=
  let unsigned := match literal with
    | '-' :: s => s
    | s => s
  let (whole, dropped) := keptWhole 0 (unsigned.takeWhile Char.isDigit)
  match unsigned.dropWhile Char.isDigit with
  | '.' :: s =>
    let (digits, behind) := keptFraction whole (s.takeWhile Char.isDigit)
    (digits, writtenExponent (s.dropWhile Char.isDigit) + dropped - behind)
  | s => (whole, writtenExponent s + dropped)

/-- Whether a number stays within the doubles: its digits and its power of ten are rounded, and so
is their product. -/
def isFinite (literal : Text) : Bool :=
  let (digits, exponent) := scientific literal
  if digits = 0 || exponent < 0 then true
  else if 308 < exponent then false
  else
    let power := roundedToDouble (Nat.pow 10 exponent.toNat)
    roundedToDouble (roundedToDouble digits * power) < doubleLimit

/-! ## Strict texts -/

/-- Whether a token may stand in a text that is read strictly. -/
def isStrict : Token → Bool
  | .number literal => isFinite literal
  | .string none => false
  | _ => true

/-- The number of open lists and records after a token. -/
def depthAfter (depth : Nat) : Token → Nat
  | .openList => depth + 1
  | .openRecord => depth + 1
  | .closeList => depth - 1
  | .closeRecord => depth - 1
  | _ => depth

/-- Whether no prefix of the tokens opens more than the limit. -/
def isShallow (depth : Nat) : List Token → Bool
  | [] => true
  | t :: ts => depthAfter depth t ≤ depthLimit && isShallow (depthAfter depth t) ts

def parseStrict? (s : String) : Option Value := do
  let ts ← tokens? s.toList
  if ts.all isStrict && isShallow 0 ts then valueOf? ts else none

def member? (name : String) : Value → Option Value
  | .record members => (members.reverse.find? (·.1 == some name)).map (·.2)
  | _ => none

end ExtensionAudit.Json
