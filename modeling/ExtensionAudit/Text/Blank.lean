/-
  Blanks: the characters with the Unicode property White_Space, and what the
  rest of the library does at them (trimming, splitting into words).

  Texts are read as lists of characters (`Text`); `String` is used where a value
  is only stored, compared or shown.
-/

namespace ExtensionAudit

/-- A text as the list of its characters. -/
abbrev Text := List Char

/-- The characters with the Unicode property White_Space. -/
def isBlank (c : Char) : Bool :=
  let n := c.toNat
  (9 ≤ n && n ≤ 13) || n == 0x20 || n == 0x85 || n == 0xA0 || n == 0x1680 ||
    (0x2000 ≤ n && n ≤ 0x200A) || n == 0x2028 || n == 0x2029 || n == 0x202F ||
    n == 0x205F || n == 0x3000

namespace Text

/-- The text without the blanks in front. -/
def trimStart (s : Text) : Text := s.dropWhile isBlank

def trimEnd (s : Text) : Text := (s.reverse.dropWhile isBlank).reverse

/-- The text without blanks at either end. -/
def trim (s : Text) : Text := trimEnd (trimStart s)

/-- Splits at every character satisfying `sep`; the parts may be empty. -/
def splitAt (sep : Char → Bool) : Text → List Text
  | [] => [[]]
  | c :: r =>
    if sep c then [] :: splitAt sep r
    else match splitAt sep r with
      | [] => [[c]]
      | part :: parts => (c :: part) :: parts

theorem splitAt_ne_nil (sep : Char → Bool) (s : Text) : splitAt sep s ≠ [] := by
  cases s with
  | nil => simp [splitAt]
  | cons c s =>
    unfold splitAt
    split
    · simp
    · split <;> simp

/-- The parts between the separators `c`, with the separators put back, are the text. -/
theorem rejoin_splitAt (c : Char) (s : Text) :
    (splitAt (· == c) s).head?.getD [] ++ ((splitAt (· == c) s).tail.map (c :: ·)).flatten = s := by
  induction s with
  | nil => rfl
  | cons a s ih =>
    unfold splitAt
    split
    · rename_i h
      cases hs : splitAt (· == c) s with
      | nil => exact absurd hs (splitAt_ne_nil _ s)
      | cons part parts => simp_all
    · cases hs : splitAt (· == c) s <;> simp_all

/-- The nonempty parts between characters satisfying `sep`. -/
def fields (sep : Char → Bool) (s : Text) : List Text :=
  (splitAt sep s).filter (! ·.isEmpty)

/-- The words of the text: the nonempty parts between blanks. -/
def words (s : Text) : List Text := fields isBlank s

/-- Whether a text comes before another: the first difference decides, and a text comes before
its continuations. -/
def isBefore : Text → Text → Bool
  | [], t => !t.isEmpty
  | _ :: _, [] => false
  | a :: s, b :: t => if a = b then isBefore s t else a.toNat < b.toNat

/-- Whether two texts agree up to the case of ASCII letters. -/
def sameIgnoringCase (s t : Text) : Bool := s.map Char.toLower == t.map Char.toLower

end Text

/-- The string without blanks at either end. -/
def trimmed (s : String) : String := String.ofList (Text.trim s.toList)

end ExtensionAudit
