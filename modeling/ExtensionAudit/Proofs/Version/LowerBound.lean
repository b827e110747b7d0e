import ExtensionAudit.Version.Constraint
/-
  Lower bounds of constraints. The later of two versions is below a third if both
  are, the earlier if one is; a term admits nothing below its lower end, so a group
  nothing below the latest of its ends and a constraint nothing below the earliest
  of its groups' bounds.

  Main statement: `Constraint.lowerBound_le`.
-/

namespace ExtensionAudit

namespace Version

variable {u v w : Version}

theorem le_of_lt (h : v < w) : v ≤ w := by
  rcases le_total v w with hle | hle
  · exact hle
  · exact absurd h hle

theorem lt_of_le_of_lt (h : u ≤ v) (h' : v < w) : u < w :=
  Decidable.not_not.mp fun hwu => le_trans (not_lt_iff.mp hwu) h h'

theorem lt_trans (h : u < v) (h' : v < w) : u < w := lt_of_le_of_lt (le_of_lt h) h'

theorem le_or_lt (v w : Version) : v ≤ w ∨ w < v := (Decidable.em (w < v)).symm

theorem segments_eq_of_same (h : v.Same w) : v.segments = w.segments := (List.append_inj h rfl).1

theorem same_iff_le : v.Same w ↔ v ≤ w ∧ w ≤ v := by
  constructor
  · intro h
    have hkey : v.key = w.key := h
    exact ⟨fun hlt => absurd (hkey ▸ hlt) (List.lt_irrefl _),
      fun hlt => absurd (hkey ▸ hlt) (List.lt_irrefl _)⟩
  · rintro ⟨hvw, hwv⟩
    exact List.le_antisymm hvw hwv

theorem later_le_iff : v.later w ≤ u ↔ v ≤ u ∧ w ≤ u := by
  unfold later
  split
  · rename_i h
    exact ⟨fun hv => ⟨hv, le_trans (le_of_lt h) hv⟩, fun hvw => hvw.1⟩
  · rename_i h
    exact ⟨fun hw => ⟨le_trans (not_lt_iff.mp h) hw, hw⟩, fun hvw => hvw.2⟩

theorem earlier_le_iff : v.earlier w ≤ u ↔ v ≤ u ∨ w ≤ u := by
  unfold earlier
  split
  · rename_i h
    exact ⟨Or.inr, fun hvw => hvw.elim (le_trans (le_of_lt h)) id⟩
  · rename_i h
    exact ⟨Or.inl, fun hvw => hvw.elim id (le_trans (not_lt_iff.mp h))⟩

theorem foldl_later_le_iff {α : Type} (f : α → Version) (as : List α) :
    as.foldl (fun v a => v.later (f a)) v ≤ u ↔ v ≤ u ∧ ∀ a ∈ as, f a ≤ u := by
  induction as generalizing v with
  | nil => simp
  | cons a as ih => rw [List.foldl_cons, ih, later_le_iff, List.forall_mem_cons, and_assoc]

theorem foldl_earlier_le_iff (vs : List Version) :
    vs.foldl .earlier v ≤ u ↔ v ≤ u ∨ ∃ w ∈ vs, w ≤ u := by
  induction vs generalizing v with
  | nil => simp
  | cons w vs ih => simp [ih, earlier_le_iff, or_assoc]

end Version

theorem Term.lowerBound_le {t : Term} {v : Version} (h : t.admits v = true) :
    t.lowerBound ≤ v := by
  cases t with
  | excluded b => exact Version.least_le v
  | range lower upper =>
    have habove : above lower v = true := (Bool.and_eq_true_iff.mp h).1
    cases lower with
    | unbounded => exact Version.least_le v
    | inclusive b => exact of_decide_eq_true habove
    | exclusive b => exact Version.le_of_lt (of_decide_eq_true habove)

namespace Constraint

theorem groupLowerBound_le_iff {group : List Term} {v : Version} :
    groupLowerBound group ≤ v ↔ ∀ t ∈ group, t.lowerBound ≤ v := by
  cases group with
  | nil => exact iff_of_true (Version.least_le v) (by simp)
  | cons t group =>
    rw [groupLowerBound, Version.foldl_later_le_iff, List.forall_mem_cons]

theorem lowerBound_le_of_mem {c : Constraint} {group : List Term} {v : Version}
    (hg : group ∈ c.groups) (h : groupLowerBound group ≤ v) : c.lowerBound ≤ v := by
  have hmem : groupLowerBound group ∈ c.groups.map groupLowerBound := List.mem_map_of_mem hg
  unfold lowerBound
  split
  · exact Version.least_le v
  · rename_i w ws heq
    rw [heq] at hmem
    rw [Version.foldl_earlier_le_iff]
    rcases List.mem_cons.mp hmem with rfl | hws
    · exact .inl h
    · exact .inr ⟨_, hws, h⟩

theorem groupLowerBound_le {group : List Term} {v : Version} (h : groupAdmits group v = true) :
    groupLowerBound group ≤ v :=
  groupLowerBound_le_iff.mpr fun t ht => Term.lowerBound_le (List.all_eq_true.mp h t ht)

/-- A constraint admits nothing below its lower bound. -/
theorem lowerBound_le {c : Constraint} {v : Version} (h : c.admits v = true) :
    c.lowerBound ≤ v := by
  obtain ⟨group, hg, hv⟩ := List.any_eq_true.mp h
  exact lowerBound_le_of_mem hg (groupLowerBound_le hv)

end Constraint

end ExtensionAudit
