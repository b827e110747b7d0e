import ExtensionAudit.Text.Blank
/-
  Decimal digits. A version segment may be written in any script's decimal
  digits as far as its shape goes, but only ASCII digits have a value here, and
  only below 2^64.
-/

namespace ExtensionAudit

/-- The zeros of the Unicode category Nd; each is followed by its digits one to nine. -/
def decimalZeros : List Nat :=
  [0x30, 0x660, 0x6F0, 0x7C0, 0x966, 0x9E6, 0xA66, 0xAE6, 0xB66, 0xBE6, 0xC66, 0xCE6, 0xD66,
   0xDE6, 0xE50, 0xED0, 0xF20, 0x1040, 0x1090, 0x17E0, 0x1810, 0x1946, 0x19D0, 0x1A80, 0x1A90,
   0x1B50, 0x1BB0, 0x1C40, 0x1C50, 0xA620, 0xA8D0, 0xA900, 0xA9D0, 0xA9F0, 0xAA50, 0xABF0,
   0xFF10, 0x104A0, 0x10D30, 0x10D40, 0x11066, 0x110F0, 0x11136, 0x111D0, 0x112F0, 0x11450,
   0x114D0, 0x11650, 0x116C0, 0x116D0, 0x116DA, 0x11730, 0x118E0, 0x11950, 0x11BF0, 0x11C50,
   0x11D50, 0x11DA0, 0x11F50, 0x16130, 0x16A60, 0x16AC0, 0x16B50, 0x16D70, 0x1CCF0, 0x1D7CE,
   0x1D7D8, 0x1D7E2, 0x1D7EC, 0x1D7F6, 0x1E140, 0x1E2F0, 0x1E4F0, 0x1E5F1, 0x1E950, 0x1FBF0]

/-- A decimal digit of any script. -/
def isDecimal (c : Char) : Bool :=
  decimalZeros.any fun z => z ≤ c.toNat && c.toNat ≤ z + 9

/-- The number an ASCII digit stands for. -/
def digitValue (c : Char) : Nat := c.toNat - '0'.toNat

/-- The value of a text of ASCII digits, read from the left onto `acc`. -/
def decimalValue (s : Text) : Nat :=
  s.foldl (fun acc c => 10 * acc + digitValue c) 0

/-- The least number that does not fit a version segment. -/
def segmentLimit : Nat := 18446744073709551616

/-- The value of a nonempty run of ASCII digits below the limit. -/
def segment? (s : Text) : Option Nat :=
  if s.isEmpty || !s.all Char.isDigit then none
  else if decimalValue s < segmentLimit then some (decimalValue s) else none

theorem segment?_lt {s : Text} {n : Nat} (h : segment? s = some n) : n < segmentLimit := by
  unfold segment? at h
  split at h
  · cases h
  · split at h <;> simp_all

theorem isDecimal_of_isDigit {c : Char} (h : c.isDigit = true) : isDecimal c = true := by
  have hc : 48 ≤ c.toNat ∧ c.toNat ≤ 57 := by
    simp only [Char.isDigit, Bool.and_eq_true, decide_eq_true_eq] at h
    exact ⟨h.1, h.2⟩
  simp only [isDecimal, decimalZeros, List.any_cons, Bool.or_eq_true, Bool.and_eq_true,
    decide_eq_true_eq]
  exact Or.inl hc

end ExtensionAudit
