import ExtensionAudit.Text.Sequence
/-
  Filling lines of a given width with words. Words are what stands between single
  spaces. A word or a space that does not fit goes to the next line; a word that is
  wider than a line is cut wherever a line is full.
-/

namespace ExtensionAudit.Text

/-- Lines being filled: those that are full, last first, the open one, and the columns it takes. -/
structure Filling where
  full : List Text
  line : Text
  used : Nat

namespace Filling

/-- A single line, with nothing on it. -/
def empty : Filling := ⟨[], [], 0⟩

/-- Begins the next line. -/
def close (f : Filling) : Filling := ⟨f.line :: f.full, [], 0⟩

/-- Puts a piece that takes so many columns on the line if it fits, and on the next one
otherwise. -/
def fit (width : Nat) (f : Filling) (piece : Text) (columns : Nat) : Filling :=
  let f := if f.used + columns ≤ width then f else f.close
  ⟨f.full, f.line ++ piece, f.used + columns⟩

/-- Puts a character of a long word on the line. Cut from its neighbours it takes a column at
least. -/
def addChar (width : Nat) (f : Filling) (c : Char) : Filling :=
  f.fit width [c] (max 1 (charColumns c))

/-- Puts a word on the line, or on the next one. -/
def addWord (width : Nat) (f : Filling) (word : Text) : Filling :=
  if columns word ≤ width then f.fit width word (columns word)
  else word.foldl (addChar width) f

/-- Puts a space and a word behind what is there. -/
def addNext (width : Nat) (f : Filling) (word : Text) : Filling :=
  (f.fit width [' '] 1).addWord width word

def lines (f : Filling) : List Text := (f.line :: f.full).reverse

end Filling

/-- The words of a text on lines of at most `width` columns. -/
def wrap (width : Nat) (s : Text) : List Text :=
  match splitAt (· == ' ') s with
  | [] => []
  | word :: words => (words.foldl (Filling.addNext width) (Filling.empty.addWord width word)).lines

example : wrap 5 "ab cd efghijk l".toList = ["ab cd", " efgh", "ijk l"].map String.toList := by
  decide +kernel

end ExtensionAudit.Text
