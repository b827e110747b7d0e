import ExtensionAudit.Text.Digit
/-
  Platform versions: four numeric segments, a stability and its number, and the
  spelling they are shown with. The spelling takes no part in comparison.
-/

namespace ExtensionAudit

/-- How far a release has come, from least to most stable. -/
inductive Stability where
  | dev | alpha | beta | rc | stable
  deriving DecidableEq, Repr

def Stability.rank : Stability → Nat
  | .dev => 0
  | .alpha => 1
  | .beta => 2
  | .rc => 3
  | .stable => 4

/-- A release of the platform. -/
structure Version where
  major : Nat
  minor : Nat
  patch : Nat
  build : Nat
  stability : Stability
  stabilityNumber : Nat
  /-- The text the version is shown as. -/
  spelling : String
  deriving DecidableEq, Repr

namespace Version

/-- The four segments, most significant first. -/
def segments (v : Version) : List Nat := [v.major, v.minor, v.patch, v.build]

/-- Versions are compared by their segments, then by stability, then by its number. -/
def key (v : Version) : List Nat := v.segments ++ [v.stability.rank, v.stabilityNumber]

instance : LT Version := ⟨fun v w => List.lt v.key w.key⟩
instance : LE Version := ⟨fun v w => List.le v.key w.key⟩

instance (v w : Version) : Decidable (v < w) := List.decidableLex (· < ·) v.key w.key
instance (v w : Version) : Decidable (v ≤ w) := inferInstanceAs (Decidable (¬ w < v))

/-- Neither version precedes the other; their spellings may differ. -/
def Same (v w : Version) : Prop := v.key = w.key

instance (v w : Version) : Decidable (v.Same w) := inferInstanceAs (Decidable (v.key = w.key))

/-- The dotted spelling of four segments. -/
def dotted (major minor patch build : Nat) : String :=
  ".".intercalate ([major, minor, patch, build].map toString)

/-- The stable release with these segments. -/
def release (major minor patch build : Nat) : Version :=
  ⟨major, minor, patch, build, .stable, 0, dotted major minor patch build⟩

/-- The version with these leading segments, the missing ones zero. Its spelling shows the
segments, and of the stabilities only `dev`. -/
def ofParts (parts : List Nat) (stability : Stability) (number : Nat) : Version :=
  let part (i : Nat) := parts.getD i 0
  let shown := dotted (part 0) (part 1) (part 2) (part 3)
  ⟨part 0, part 1, part 2, part 3, stability, number,
    if stability = .dev then shown ++ "-dev" else shown⟩

def least : Version := ofParts [] .dev 0

theorem zero_cons_le (n : Nat) {s t : List Nat} (h : List.le s t) :
    List.le (0 :: s) (n :: t) := by
  intro hlt
  cases hlt with
  | rel h0 => exact Nat.not_lt_zero _ h0
  | cons htl => exact h htl

theorem least_le (v : Version) : least ≤ v :=
  zero_cons_le _ <| zero_cons_le _ <| zero_cons_le _ <| zero_cons_le _ <| zero_cons_le _ <|
    zero_cons_le _ <| nofun

theorem le_refl (v : Version) : v ≤ v := List.le_refl v.key

theorem le_trans {u v w : Version} (h : u ≤ v) (h' : v ≤ w) : u ≤ w :=
  List.le_trans (α := Nat) h h'

theorem le_total (v w : Version) : v ≤ w ∨ w ≤ v := List.le_total v.key w.key

theorem not_lt_iff {v w : Version} : ¬ v < w ↔ w ≤ v := Iff.rfl

/-- The later of two versions, the second of two equal ones. -/
def later (v w : Version) : Version := if w < v then v else w

/-- The earlier of two versions, the first of two equal ones. -/
def earlier (v w : Version) : Version := if w < v then w else v

end Version

end ExtensionAudit
