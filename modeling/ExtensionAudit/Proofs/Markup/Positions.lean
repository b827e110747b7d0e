import ExtensionAudit.Markup.Document
import ExtensionAudit.Proofs.Markup.Reading
/-
  Positions in a source. A position counts bytes, and a part of the source is taken
  between two positions; that fails where one is behind the end or inside of a
  character. Reading the rest of a source character by character keeps to positions
  in front of what is left, and there nothing fails.

  Main statements: `slice_frontOf`, `take_frontOf`, `takeWhile_frontOf`,
  `takeThrough_frontOf` and `takeTwig_frontOf`.
-/

namespace ExtensionAudit

namespace Text

variable {s t a b seen stop : Text} {p : Char → Bool}

/-! ## Bytes -/

/-- The number of bytes that a text takes. -/
def size : Text → Nat
  | [] => 0
  | c :: s => c.utf8Size + size s

@[simp] theorem size_nil : size [] = 0 := rfl

@[simp] theorem size_cons (c : Char) (s : Text) : size (c :: s) = c.utf8Size + size s := rfl

@[simp] theorem size_append (a b : Text) : size (a ++ b) = size a + size b := by
  induction a with
  | nil => simp
  | cons c a ih => rw [List.cons_append, size_cons, size_cons, ih, Nat.add_assoc]

@[simp] theorem size_reverse (s : Text) : size s.reverse = size s := by
  induction s with
  | nil => rfl
  | cons c s ih => simp [ih, Nat.add_comm]

theorem size_pos (hs : s ≠ []) : 0 < size s := by
  obtain ⟨c, r, rfl⟩ := List.exists_cons_of_ne_nil hs
  have hc := c.utf8Size_pos
  rw [size_cons]
  omega

theorem size_eq_zero : size s = 0 ↔ s = [] := by
  constructor
  · intro hzero
    by_cases hs : s = []
    · exact hs
    · exact absurd hzero (Nat.ne_of_gt (size_pos hs))
  · rintro rfl
    rfl

/-- Cuts a text at a byte position, unless that is behind the end or inside of a character. -/
def cutAt? (i : Nat) : Text → Option (Text × Text)
  | [] => if i = 0 then some ([], []) else none
  | c :: s =>
    if i = 0 then some ([], c :: s)
    else if c.utf8Size ≤ i then (cutAt? (i - c.utf8Size) s).map fun (a, b) => (c :: a, b)
    else none

theorem cutAt?_size (a b : Text) : cutAt? (size a) (a ++ b) = some (a, b) := by
  induction a with
  | nil => cases b <;> simp [cutAt?]
  | cons c a ih =>
    have hc := c.utf8Size_pos
    have hne : size (c :: a) ≠ 0 := Nat.ne_of_gt (size_pos (by simp))
    have hle : c.utf8Size ≤ size (c :: a) := by simp
    rw [List.cons_append, cutAt?, if_neg hne, if_pos hle, size_cons, Nat.add_sub_cancel_left, ih]
    rfl

/-- The byte position of the first character with a property. -/
def findChar? (p : Char → Bool) : Text → Option Nat
  | [] => none
  | c :: s => if p c then some 0 else (findChar? p s).map (c.utf8Size + ·)

theorem findChar?_not (p : Char → Bool) (s : Text) :
    (findChar? (fun c => !p c) s).getD s.size = size (s.takeWhile p) := by
  induction s with
  | nil => rfl
  | cons c s ih =>
    rw [findChar?, List.takeWhile_cons]
    cases hp : p c with
    | false => simp
    | true =>
      simp only [Bool.not_true, Bool.false_eq_true, if_false, if_true, size_cons, ← ih]
      cases findChar? (fun c => !p c) s <;> rfl

/-- The byte position of the first occurrence of a text. -/
def findText? (t : Text) : Text → Option Nat
  | [] => if t.isEmpty then some 0 else none
  | c :: s => if t.isPrefixOf (c :: s) then some 0 else (findText? t s).map (c.utf8Size + ·)

theorem isPrefixOf_iff_strip? : t.isPrefixOf s = true ↔ ∃ b, strip? t s = some b := by
  simp only [List.isPrefixOf_iff_prefix, strip?_eq_some_iff]
  exact exists_congr fun b => eq_comm

/-- A text is cut behind its first part that ends with another text where that is found. -/
theorem findText?_splitAfterOnto (stop seen s : Text) :
    match splitAfterOnto stop seen s with
    | none => findText? stop s = none
    | some (a, _) => ∃ i, findText? stop s = some i ∧ seen.size + (i + stop.size) = a.size := by
  induction s generalizing seen with
  | nil =>
    cases stop with
    | nil => simp [splitAfterOnto, strip?, findText?]
    | cons c stop => simp [splitAfterOnto, strip?, findText?]
  | cons c s ih =>
    rw [splitAfterOnto, findText?]
    cases hstrip : strip? stop (c :: s) with
    | some r =>
      rw [if_pos (isPrefixOf_iff_strip?.mpr ⟨r, hstrip⟩)]
      exact ⟨0, rfl, by simp⟩
    | none =>
      have hprefix : ¬stop.isPrefixOf (c :: s) = true := by
        rw [isPrefixOf_iff_strip?, hstrip]
        simp
      rw [if_neg hprefix]
      have hrest := ih (c :: seen)
      dsimp only
      revert hrest
      cases splitAfterOnto stop (c :: seen) s with
      | none => exact fun hnone => by rw [hnone]; rfl
      | some cut =>
        rintro ⟨i, hi, hsize⟩
        refine ⟨c.utf8Size + i, by rw [hi]; rfl, ?_⟩
        rw [← hsize, size_cons]
        omega

theorem findText?_of_splitAfter (h : splitAfter stop s = some (a, b)) :
    ∃ i, findText? stop s = some i ∧ i + stop.size = a.size := by
  have hfind := findText?_splitAfterOnto stop [] s
  rw [splitAfter] at h
  rw [h] at hfind
  simpa using hfind

theorem findText?_of_splitAfter_none (h : splitAfter stop s = none) :
    findText? stop s = none := by
  have hfind := findText?_splitAfterOnto stop [] s
  rw [splitAfter] at h
  rwa [h] at hfind

end Text

namespace Markup

/-! ## Slices -/

/-- How a scan ends without a result: the source is cut inside a construct; a slice is taken that
is not inside the source or cuts a character; or a loop neither goes on nor ends. -/
inductive Halt where
  | unterminated (e : Unterminated)
  | outside
  | stuck
  deriving DecidableEq, Repr

/-- The part of a source behind a byte position. -/
def sliceFrom (src : Text) (i : Nat) : Except Halt Text :=
  match src.cutAt? i with
  | some (_, s) => .ok s
  | none => .error .outside

/-- The part of a source between two byte positions. -/
def slice (src : Text) (i j : Nat) : Except Halt Text :=
  if j < i then .error .outside
  else do
    match (← sliceFrom src i).cutAt? (j - i) with
    | some (a, _) => return a
    | none => throw .outside

/-- A place in a source: the bytes in front of it, and the line it is on. -/
structure Position where
  offset : Nat
  line : Nat
  deriving DecidableEq, Repr

namespace Position

variable (src : Text) (p : Position)

/-- What is left of the source. -/
def rest : Except Halt Text := sliceFrom src p.offset

/-- Whether nothing is left. -/
def atEnd : Bool := src.size ≤ p.offset

def peek : Except Halt (Option Char) := do return (← p.rest src).head?

/-- Takes so many bytes. -/
def take (len : Nat) : Except Halt (Text × Position) := do
  let taken ← slice src p.offset (p.offset + len)
  return (taken, ⟨p.offset + len, p.line + Text.lineBreaks taken⟩)

/-- Takes the characters up to the first one without a property. -/
def takeWhile (keep : Char → Bool) : Except Halt (Text × Position) := do
  let s ← p.rest src
  p.take src ((s.findChar? fun c => !keep c).getD s.size)

/-- Takes everything through the first occurrence of a text. -/
def takeThrough (stop : Text) (construct : Construct) (line : Nat) :
    Except Halt (Text × Position) := do
  match Text.findText? stop (← p.rest src) with
  | some i => p.take src (i + stop.size)
  | none => throw (.unterminated ⟨construct, line⟩)

/-- Takes a Twig construct, if one begins here. -/
def takeTwig : Except Halt (Option Text × Position) := do
  match twig? (← p.rest src) with
  | none => return (none, p)
  | some v =>
    let (_, inside) ← p.take src 2
    let (_, behind) ← inside.takeThrough src v.stop v.construct p.line
    return (some (← slice src p.offset behind.offset), behind)

/-- Whether a place lies further on inside the source, as the next turn of a loop has to. -/
def MovesTo (q : Position) : Prop := p.offset < q.offset ∧ q.offset ≤ src.size

instance (q : Position) : Decidable (p.MovesTo src q) := inferInstanceAs (Decidable (_ ∧ _))

end Position

/-! ## In front of what is left -/

def frontOf (src rest : Text) : Position := ⟨src.size - rest.size, lineAt src rest⟩

/-- How a construct is reported that the source is cut inside of. -/
def report (src : Text) (cut : Cut) : Halt := .unterminated ⟨cut.construct, lineAt src cut.rest⟩

open Position

variable {src s a b : Text} {c : Char}

theorem sliceFrom_size (front s : Text) : sliceFrom (front ++ s) front.size = .ok s := by
  rw [sliceFrom, Text.cutAt?_size]

theorem sliceFrom_frontOf (h : s <:+ src) : sliceFrom src (frontOf src s).offset = .ok s := by
  obtain ⟨front, rfl⟩ := h
  have hoffset : (frontOf (front ++ s) s).offset = Text.size front := by simp [frontOf]
  rw [hoffset, sliceFrom_size]

theorem rest_frontOf (h : s <:+ src) : (frontOf src s).rest src = .ok s := sliceFrom_frontOf h

theorem peek_frontOf (h : s <:+ src) : (frontOf src s).peek src = .ok s.head? := by
  rw [peek, rest_frontOf h]
  rfl

theorem atEnd_frontOf (h : s <:+ src) : (frontOf src s).atEnd src = s.isEmpty := by
  obtain ⟨front, rfl⟩ := h
  have hends : (frontOf (front ++ s) s).atEnd (front ++ s) = true ↔ s.size = 0 := by
    simp only [atEnd, frontOf, Text.size_append, decide_eq_true_eq]
    omega
  rw [Bool.eq_iff_iff, hends, Text.size_eq_zero, List.isEmpty_iff]

theorem offset_frontOf (h : a ++ b <:+ src) :
    (frontOf src b).offset = (frontOf src (a ++ b)).offset + a.size := by
  obtain ⟨front, rfl⟩ := h
  simp only [frontOf, Text.size_append]
  omega

theorem suffix_behind (h : s <:+ src) (happend : a ++ b = s) : b <:+ src :=
  (happend ▸ List.suffix_append a b).trans h

/-- Between the places in front of two rests stands what one has in front of the other. -/
theorem slice_frontOf (h : s <:+ src) (happend : a ++ b = s) :
    slice src (frontOf src s).offset (frontOf src b).offset = .ok a := by
  subst happend
  rw [slice, offset_frontOf h, if_neg (by omega), sliceFrom_frontOf h]
  show (match Text.cutAt? _ (a ++ b) with | some (a, _) => _ | none => _) = _
  rw [Nat.add_sub_cancel_left, Text.cutAt?_size]
  rfl

theorem line_frontOf (h : a ++ b <:+ src) :
    (frontOf src b).line = (frontOf src (a ++ b)).line + Text.lineBreaks a := by
  obtain ⟨front, rfl⟩ := h
  simp only [frontOf, lineAt, Text.lineBreaks_append]
  omega

theorem take_frontOf (h : s <:+ src) (happend : a ++ b = s) :
    (frontOf src s).take src a.size = .ok (a, frontOf src b) := by
  subst happend
  have hslice := slice_frontOf h rfl
  rw [offset_frontOf h] at hslice
  rw [take, hslice]
  show Except.ok (a, Position.mk _ _) = _
  rw [← offset_frontOf h, ← line_frontOf h]

theorem take_char (h : c :: s <:+ src) :
    (frontOf src (c :: s)).take src c.utf8Size = .ok ([c], frontOf src s) := by
  have htake := take_frontOf (a := [c]) h rfl
  simpa using htake

theorem takeWhile_frontOf (keep : Char → Bool) (h : s <:+ src) :
    (frontOf src s).takeWhile src keep =
      .ok (s.takeWhile keep, frontOf src (s.dropWhile keep)) := by
  rw [Position.takeWhile, rest_frontOf h]
  show (frontOf src s).take src ((s.findChar? _).getD s.size) = _
  rw [Text.findChar?_not]
  exact take_frontOf h List.takeWhile_append_dropWhile

theorem takeThrough_frontOf (stop : Text) (construct : Construct) (line : Nat) (h : s <:+ src) :
    (frontOf src s).takeThrough src stop construct line =
      match Text.splitAfter stop s with
      | some (a, b) => .ok (a, frontOf src b)
      | none => .error (.unterminated ⟨construct, line⟩) := by
  rw [takeThrough, rest_frontOf h]
  show (match Text.findText? stop s with | some i => _ | none => _) = _
  cases hsplit : Text.splitAfter stop s with
  | none =>
    rw [Text.findText?_of_splitAfter_none hsplit]
    rfl
  | some cut =>
    obtain ⟨a, b⟩ := cut
    obtain ⟨i, hi, hsize⟩ := Text.findText?_of_splitAfter hsplit
    rw [hi]
    dsimp only
    rw [hsize]
    exact take_frontOf h (Text.splitAfter_append hsplit)

/-- The result of reading a rest, as a place in the source. -/
def located (src : Text) {α : Type} : Except Cut (α × Text) → Except Halt (α × Position)
  | .ok (x, rest) => .ok (x, frontOf src rest)
  | .error cut => .error (report src cut)

theorem twig?_eq_some {v : Verbatim} (h : twig? s = some v) :
    v.skip = 2 ∧ Text.size (s.take 2) = 2 := by
  unfold twig? at h
  split at h
  · cases h
    exact ⟨rfl, rfl⟩
  · cases h
    exact ⟨rfl, rfl⟩
  · cases h
    exact ⟨rfl, rfl⟩
  · cases h

/-- A Twig construct is taken as reading takes it. -/
theorem takeTwig_frontOf (h : s <:+ src) : (frontOf src s).takeTwig src =
    match twig? s with
    | none => .ok (none, frontOf src s)
    | some v => located src ((v.take s).map fun (text, rest) => (some text, rest)) := by
  rw [takeTwig, rest_frontOf h]
  show (match twig? s with | none => _ | some v => _) = _
  cases htwig : twig? s with
  | none => rfl
  | some v =>
    obtain ⟨hskip, hsize⟩ := twig?_eq_some htwig
    have hopener := List.take_append_drop 2 s
    have htake := take_frontOf h hopener
    rw [hsize] at htake
    dsimp only
    rw [htake]
    show ((frontOf src (s.drop 2)).takeThrough src v.stop v.construct _ >>= _) = _
    rw [takeThrough_frontOf _ _ _ (suffix_behind h hopener), Verbatim.take, hskip]
    cases hsplit : Text.splitAfter v.stop (s.drop 2) with
    | none => rfl
    | some cut =>
      obtain ⟨body, rest⟩ := cut
      have hwhole : (s.take 2 ++ body) ++ rest = s := by
        rw [List.append_assoc, Text.splitAfter_append hsplit, hopener]
      show (slice src (frontOf src s).offset (frontOf src rest).offset >>= _) = _
      rw [slice_frontOf h hwhole]
      rfl

end Markup

end ExtensionAudit
