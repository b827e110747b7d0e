import ExtensionAudit.Text.Wrap
/-
  Tables drawn with box characters. A cell may have several lines; every column is
  as wide as its widest line, with a space at either side. A table without rows
  has no line at its foot.
-/

namespace ExtensionAudit

/-- A table: its headings, and rows of as many cells. -/
structure Table where
  headings : List Text
  rows : List (List Text)

namespace Table

def cellLines (cell : Text) : List Text := Text.splitAt (· == '\n') cell

def cellWidth (cell : Text) : Nat := ((cellLines cell).map Text.columns).foldl max 0

def widths (t : Table) : List Nat :=
  t.rows.foldl (fun ws row => ws.zipWith max (row.map cellWidth)) (t.headings.map cellWidth)

def padded (width : Nat) (line : Text) : Text :=
  line ++ List.replicate (width - Text.columns line) ' '

def pieceAt (cell : Text) (line : Nat) : Text := (cellLines cell)[line]?.getD []

def rowLines (ws : List Nat) (row : List Text) : List Text :=
  let height := (row.map fun cell => (cellLines cell).length).foldl max 1
  (List.range height).map fun n =>
    let pieces := ws.zipWith (fun w cell => padded w (pieceAt cell n)) row
    "│ ".toList ++ " │ ".toList.intercalate pieces ++ " │".toList

/-- A line across the table. -/
def rule (left middle right : Char) (ws : List Nat) : Text :=
  left :: [middle].intercalate (ws.map fun w => List.replicate (w + 2) '─') ++ [right]

def lines (t : Table) : List Text :=
  let ws := t.widths
  rule '┌' '┬' '┐' ws :: rowLines ws t.headings ++ [rule '├' '┼' '┤' ws] ++
    t.rows.flatMap (rowLines ws) ++ if t.rows.isEmpty then [] else [rule '└' '┴' '┘' ws]

/-- A cell whose text is wrapped when it is wider than `width`. -/
def wrappedCell (width : Nat) (cell : Text) : Text :=
  if cellWidth cell ≤ width then cell else ['\n'].intercalate (Text.wrap width cell)

end Table

end ExtensionAudit
