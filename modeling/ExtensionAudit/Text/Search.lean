import ExtensionAudit.Text.Blank
/-
  Searching and cutting texts: the part up to and including a terminator, the
  lines of a text, the count of its line breaks.

  Main statements: `splitAfter_append` (a cut loses nothing) and
  `splitAfter_ne_nil` (it takes something), from which the scanners take their
  termination.
-/

namespace ExtensionAudit.Text

/-- The text after `front`, when it begins with it. -/
def strip? : Text → Text → Option Text
  | [], s => some s
  | _ :: _, [] => none
  | a :: front, c :: s => if a = c then strip? front s else none

theorem strip?_append {front s r : Text} (h : strip? front s = some r) : front ++ r = s := by
  induction front generalizing s with
  | nil => simp_all [strip?]
  | cons a front ih =>
    cases s with
    | nil => simp [strip?] at h
    | cons c s =>
      simp only [strip?] at h
      split at h
      · rename_i hac
        rw [List.cons_append, ih h, hac]
      · cases h

/-- Cuts after the first occurrence of `stop`; `seen` holds the passed characters, last first. -/
def splitAfterOnto (stop : Text) (seen : Text) : Text → Option (Text × Text)
  | [] => (strip? stop []).map fun r => (seen.reverse ++ stop, r)
  | c :: s =>
    match strip? stop (c :: s) with
    | some r => some (seen.reverse ++ stop, r)
    | none => splitAfterOnto stop (c :: seen) s

/-- Cuts after the first occurrence of `stop`: the part that ends with it, and the rest. -/
def splitAfter (stop s : Text) : Option (Text × Text) := splitAfterOnto stop [] s

theorem splitAfterOnto_append {stop s seen a b : Text}
    (h : splitAfterOnto stop seen s = some (a, b)) : a ++ b = seen.reverse ++ s := by
  induction s generalizing seen with
  | nil =>
    simp only [splitAfterOnto, Option.map_eq_some_iff, Prod.mk.injEq] at h
    obtain ⟨r, hr, rfl, rfl⟩ := h
    rw [List.append_assoc, strip?_append hr]
  | cons c s ih =>
    simp only [splitAfterOnto] at h
    split at h
    · rename_i r hr
      simp only [Option.some.injEq, Prod.mk.injEq] at h
      obtain ⟨rfl, rfl⟩ := h
      rw [List.append_assoc, strip?_append hr]
    · rw [ih h]; simp

theorem splitAfter_append {stop s a b : Text} (h : splitAfter stop s = some (a, b)) :
    a ++ b = s := by
  simpa using splitAfterOnto_append h

theorem splitAfterOnto_ne_nil {stop s seen a b : Text} (hstop : stop ≠ [])
    (h : splitAfterOnto stop seen s = some (a, b)) : a ≠ [] := by
  induction s generalizing seen with
  | nil =>
    simp only [splitAfterOnto, Option.map_eq_some_iff, Prod.mk.injEq] at h
    obtain ⟨r, -, rfl, -⟩ := h
    simp [hstop]
  | cons c s ih =>
    simp only [splitAfterOnto] at h
    split at h
    · simp only [Option.some.injEq, Prod.mk.injEq] at h
      obtain ⟨rfl, -⟩ := h
      simp [hstop]
    · exact ih h

theorem splitAfter_ne_nil {stop s a b : Text} (hstop : stop ≠ [])
    (h : splitAfter stop s = some (a, b)) : a ≠ [] :=
  splitAfterOnto_ne_nil hstop h

def lineBreaks (s : Text) : Nat := s.count '\n'

@[simp] theorem lineBreaks_nil : lineBreaks [] = 0 := rfl

theorem lineBreaks_append (s t : Text) : lineBreaks (s ++ t) = lineBreaks s + lineBreaks t :=
  List.count_append

/-- A line without the carriage return that ends it. -/
def dropReturn (line : Text) : Text :=
  match line.reverse with
  | '\r' :: r => r.reverse
  | _ => line

/-- The lines of a text. A line break ends a line, a carriage return in front of it
belongs to it, and an empty rest after the last break is no line. -/
def lines (s : Text) : List Text :=
  match (splitAt (· == '\n') s).reverse with
  | [] => []
  | last :: ended =>
    let ended := (ended.map dropReturn).reverse
    if last.isEmpty then ended else ended ++ [last]

def replaceChar (old new : Char) (s : Text) : Text :=
  s.map fun c => if c == old then new else c

end ExtensionAudit.Text
