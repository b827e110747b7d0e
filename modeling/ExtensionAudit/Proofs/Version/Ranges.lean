import ExtensionAudit.Proofs.Version.LowerBound
import ExtensionAudit.Version.ConstraintSyntax
/-
  Ranges as conditions on segments. Versions compare by their first segments and,
  where these agree, by what stands behind them. The development release that ends
  in zeros comes first among the versions with its first segments, so the versions
  below the next one are those whose first segments are at most the operand's.

  Main statements: `Operand.next_increments` and `Operand.upToNext_increments`.
-/

namespace ExtensionAudit

/-! ## First segments -/

theorem append_lt_append_iff {s s' t t' : List Nat} (h : s.length = s'.length) :
    s ++ t < s' ++ t' ↔ s < s' ∨ s = s' ∧ t < t' := by
  induction s generalizing s' with
  | nil =>
    obtain rfl : s' = [] := List.length_eq_zero_iff.mp h.symm
    simp
  | cons n s ih =>
    cases s' with
    | nil => simp at h
    | cons n' s' =>
      have h : s.length = s'.length := by simpa using h
      simp only [List.cons_append, List.cons_lt_cons_iff, ih h, List.cons.injEq]
      grind

theorem not_lt_zeros (k : Nat) {s : List Nat} (h : k ≤ s.length) : ¬ s < List.replicate k 0 := by
  induction k generalizing s with
  | zero => exact List.not_lt_nil s
  | succ k ih =>
    cases s with
    | nil => simp at h
    | cons n s =>
      rw [List.replicate_succ, List.cons_lt_cons_iff]
      rintro (hn | ⟨-, hs⟩)
      · exact Nat.not_lt_zero n hn
      · exact ih (Nat.le_of_succ_le_succ h) hs

/-- What is below a list with its last number incremented is not above the list. -/
theorem lt_succ_last_iff {s front : List Nat} {n : Nat} (h : s.length = front.length + 1) :
    s < front ++ [n + 1] ↔ ¬ front ++ [n] < s := by
  induction front generalizing s with
  | nil =>
    obtain ⟨m, rfl⟩ := List.length_eq_one_iff.mp h
    simp only [List.nil_append, List.cons_lt_cons_iff, List.lt_irrefl, and_false, or_false]
    omega
  | cons a front ih =>
    cases s with
    | nil => simp at h
    | cons m s =>
      have ih := ih (s := s) (by simpa using h)
      simp only [List.cons_append, List.cons_lt_cons_iff, ih]
      rcases Nat.lt_trichotomy m a with hlt | rfl | hgt
      · simp [hlt, Nat.lt_asymm hlt, Nat.ne_of_gt hlt]
      · simp
      · simp [hgt, Nat.lt_asymm hgt, Nat.ne_of_gt hgt]

namespace Version

@[simp]
theorem length_segments (v : Version) : v.segments.length = 4 := rfl

/-- The versions with these first segments are compared by them before anything else. -/
theorem not_take_lt_of_le {v w : Version} (h : v ≤ w) (k : Nat) :
    ¬ w.segments.take k < v.segments.take k := by
  intro hlt
  have hkey (u : Version) : u.key =
      u.segments.take k ++ (u.segments.drop k ++ [u.stability.rank, u.stabilityNumber]) := by
    rw [← List.append_assoc, List.take_append_drop, key]
  apply h
  show w.key < v.key
  rw [hkey w, hkey v, append_lt_append_iff (by simp)]
  exact .inl hlt

/-- Versions with the same segments are compared by their stability, then by its number. -/
theorem lt_iff_of_segments {v w : Version} (h : v.segments = w.segments) :
    v < w ↔ v.stability.rank < w.stability.rank ∨
      v.stability.rank = w.stability.rank ∧ v.stabilityNumber < w.stabilityNumber := by
  show v.key < w.key ↔ _
  rw [key, key, append_lt_append_iff (by simp), h, or_iff_right (List.lt_irrefl w.segments)]
  simp [List.cons_lt_cons_iff]

theorem segments_ofParts {parts : List Nat} (h : parts.length ≤ 4) (s : Stability) (n : Nat) :
    (ofParts parts s n).segments = parts ++ List.replicate (4 - parts.length) 0 := by
  match parts, h with
  | [], _ => rfl
  | [a], _ => rfl
  | [a, b], _ => rfl
  | [a, b, c], _ => rfl
  | [a, b, c, d], _ => rfl

/-- A version comes before all that begin with certain parts exactly when its first segments come
before them. -/
theorem lt_ofParts_iff {v : Version} {parts : List Nat} (h : parts.length ≤ 4) :
    v < ofParts parts .dev 0 ↔ v.segments.take parts.length < parts := by
  have hleast : (ofParts parts .dev 0).key =
      parts ++ List.replicate (4 - parts.length + 2) 0 := by
    rw [key, segments_ofParts h, List.append_assoc, ← List.replicate_append_replicate]
    rfl
  have hkey : v.key = v.segments.take parts.length ++
      (v.segments.drop parts.length ++ [v.stability.rank, v.stabilityNumber]) := by
    rw [← List.append_assoc, List.take_append_drop, key]
  show v.key < (ofParts parts .dev 0).key ↔ _
  rw [hkey, hleast, append_lt_append_iff (by simp [Nat.min_eq_left h])]
  have hrest := not_lt_zeros (4 - parts.length + 2)
    (s := v.segments.drop parts.length ++ [v.stability.rank, v.stabilityNumber]) (by simp)
  simp [hrest]

end Version

/-! ## Incremented parts -/

/-- Whether a reading increments the last of these parts: it fails when that part is the greatest
segment, and otherwise gives a result of which `good` holds. -/
def Increments {α : Type} (parts : List Nat) (read : Except ConstraintFault α) (good : α → Prop) :
    Prop :=
  (parts.getLast? = some (segmentLimit - 1) →
      read = .error (.segmentOutOfRange (toString (segmentLimit - 1)))) ∧
    (parts.getLast? ≠ some (segmentLimit - 1) → ∃ a, read = .ok a ∧ good a)

theorem Increments.map {α β : Type} {parts : List Nat} {read : Except ConstraintFault α}
    {good : α → Prop} {good' : β → Prop} {f : α → β} (h : Increments parts read good)
    (hgood : ∀ a, good a → good' (f a)) : Increments parts (read.map f) good' := by
  constructor
  · intro hlast
    rw [h.1 hlast]
    rfl
  · intro hlast
    obtain ⟨a, hread, ha⟩ := h.2 hlast
    exact ⟨f a, by rw [hread]; rfl, hgood a ha⟩

theorem Increments.of_ok {α : Type} {parts : List Nat} {read : Except ConstraintFault α}
    {good : α → Prop} (h : Increments parts read good) {a : α} (ha : read = .ok a) : good a := by
  by_cases hlast : parts.getLast? = some (segmentLimit - 1)
  · exact nomatch (h.1 hlast).symm.trans ha
  · obtain ⟨b, hread, hb⟩ := h.2 hlast
    rwa [← Except.ok.inj (hread.symm.trans ha)]

namespace Operand

/-- What reading an operand guarantees: it has one to four parts, and each fits a segment. -/
structure Formed (x : Operand) : Prop where
  ne_nil : x.parts ≠ []
  length_le : x.parts.length ≤ 4
  lt_limit : ∀ n ∈ x.parts, n < segmentLimit

theorem increment_concat (front : List Nat) (n : Nat) :
    increment (front ++ [n]) =
      if n + 1 < segmentLimit then .ok (front ++ [n + 1])
      else .error (.segmentOutOfRange (toString n)) := by
  induction front with
  | nil => rfl
  | cons a front ih =>
    have hcons : increment (a :: (front ++ [n])) = (increment (front ++ [n])).map (a :: ·) := by
      cases front <;> rfl
    rw [List.cons_append, hcons, ih]
    split <;> rfl

theorem Formed.exists_take {x : Operand} (hx : x.Formed) (index : Nat) :
    ∃ front n, x.parts.take (index + 1) = front ++ [n] ∧ front.length + 1 ≤ 4 ∧
      n < segmentLimit := by
  have hne : x.parts.take (index + 1) ≠ [] := by simp [hx.ne_nil]
  have hconcat := List.dropLast_concat_getLast hne
  refine ⟨_, _, hconcat.symm, ?_, hx.lt_limit _ (List.mem_of_mem_take (List.getLast_mem hne))⟩
  have hlength := congrArg List.length hconcat
  have hle := hx.length_le
  simp only [List.length_append, List.length_cons, List.length_nil, List.length_take] at hlength
  omega

/-- What comes before the next version at an index begins with segments that are not above the parts
up to there. -/
theorem next_increments {x : Operand} (hx : x.Formed) (index : Nat) :
    Increments (x.parts.take (index + 1)) (x.next index) fun upper => ∀ v : Version,
      v < upper ↔ ¬ x.parts.take (index + 1) <
        v.segments.take (x.parts.take (index + 1)).length := by
  obtain ⟨front, n, hparts, hlength, hn⟩ := hx.exists_take index
  have hlimit : 0 < segmentLimit := by decide
  rw [next, hparts, increment_concat]
  constructor
  · intro hlast
    obtain rfl : n = segmentLimit - 1 := by simpa using hlast
    rw [if_neg (by omega)]
    rfl
  · intro hlast
    have hne : n ≠ segmentLimit - 1 := by simpa using hlast
    rw [if_pos (by omega)]
    refine ⟨_, rfl, fun v => ?_⟩
    have htake : (v.segments.take (front ++ [n]).length).length = front.length + 1 := by
      simp [Nat.min_eq_left hlength]
    rw [Version.lt_ofParts_iff (by simpa using hlength), ← lt_succ_last_iff htake]
    simp

theorem segments_exact {x : Operand} (hx : x.Formed) :
    x.exact.segments = x.parts ++ List.replicate (4 - x.parts.length) 0 :=
  Version.segments_ofParts hx.length_le _ _

theorem take_floor {x : Operand} (hx : x.Formed) {k : Nat} (hk : k ≤ x.parts.length) :
    x.floor.segments.take k = x.parts.take k := by
  rw [floor, Version.segments_ofParts hx.length_le, List.take_append_of_le_length hk]

/-- A range up to the next version at an index admits, from the operand's floor on, the versions
that begin with the parts up to there. -/
theorem upToNext_increments {x : Operand} (hx : x.Formed) (index : Nat) :
    Increments (x.parts.take (index + 1)) (x.upToNext index) fun t => ∀ v : Version,
      t.admits v = true ↔ x.floor ≤ v ∧ x.parts.take (index + 1) <+: v.segments := by
  refine (next_increments hx index).map fun upper hbelow v => ?_
  simp only [Term.admits, Term.above, Term.below, Bool.and_eq_true, decide_eq_true_eq, hbelow]
  refine and_congr_right fun hfloor => ?_
  -- the floor bounds the same segments from below
  have habove := Version.not_take_lt_of_le hfloor (x.parts.take (index + 1)).length
  have hself : x.parts.take (x.parts.take (index + 1)).length = x.parts.take (index + 1) :=
    (List.prefix_iff_eq_take.mp (List.take_prefix _ _)).symm
  rw [take_floor hx (List.length_take_le' _ _), hself] at habove
  rw [List.prefix_iff_eq_take]
  constructor
  · intro hle
    exact List.le_antisymm habove hle
  · intro heq
    rw [← heq]
    exact List.lt_irrefl _

/-- An operand without a stability is the first of the versions that begin with its parts. -/
theorem floor_le_of_prefix {x : Operand} (hx : x.Formed) (hstability : x.stability = none)
    {v : Version} (hv : x.parts <+: v.segments) : x.floor ≤ v := by
  intro hlt
  rw [floor, hstability] at hlt
  have hbefore := (Version.lt_ofParts_iff hx.length_le).mp hlt
  rw [← List.prefix_iff_eq_take.mp hv] at hbefore
  exact List.lt_irrefl _ hbefore

theorem findIdx?_ne_zero (ns : List Nat) :
    ns.findIdx? (· != 0) =
      if (ns.takeWhile (· == 0)).length < ns.length then some (ns.takeWhile (· == 0)).length
      else none := by
  induction ns with
  | nil => rfl
  | cons n ns ih =>
    by_cases hn : n = 0
    · simp only [List.findIdx?_cons, hn, ih, List.takeWhile_cons, beq_self_eq_true, bne_self_eq_false,
        List.length_cons, Nat.add_lt_add_iff_right, if_true, Bool.false_eq_true, if_false]
      split <;> rfl
    · simp [List.findIdx?_cons, hn]

/-- A caret range increments the part behind the leading zeros, or the last part. -/
theorem caretIndex_eq (x : Operand) :
    x.caretIndex = min (x.parts.takeWhile (· == 0)).length (x.parts.length - 1) := by
  have hle := (List.takeWhile_prefix (· == 0) (l := x.parts)).length_le
  rw [caretIndex, findIdx?_ne_zero]
  split <;> simp <;> omega

end Operand

end ExtensionAudit
