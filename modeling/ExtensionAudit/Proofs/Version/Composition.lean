import ExtensionAudit.Proofs.Version.Alternatives
import ExtensionAudit.Proofs.Version.LowerBound
/-
  Constraints put together. Two constraints with two bars between them admit what one
  of them admits, and two constraints of one alternative with a comma or a blank between
  them admit what both admit. The lower bound is the earlier of the two bounds in the
  first case and the later in the second.

  Main statement: `parse_composed`.
-/

namespace ExtensionAudit

namespace Version

theorem earlier_of_le {v w : Version} (h : v ≤ w) : v.earlier w = v := if_neg h

theorem earlier_of_lt {v w : Version} (h : w < v) : v.earlier w = w := if_pos h

theorem later_of_le {v w : Version} (h : v ≤ w) : v.later w = w := if_neg h

theorem later_of_lt {v w : Version} (h : w < v) : v.later w = v := if_pos h

instance : Std.Associative earlier where
  assoc u v w := by
    rcases le_or_lt u v with huv | hvu
    · rcases le_or_lt v w with hvw | hwv
      · rw [earlier_of_le huv, earlier_of_le hvw, earlier_of_le huv,
          earlier_of_le (le_trans huv hvw)]
      · rw [earlier_of_le huv, earlier_of_lt hwv]
    · rcases le_or_lt v w with hvw | hwv
      · rw [earlier_of_lt hvu, earlier_of_le hvw, earlier_of_lt hvu]
      · rw [earlier_of_lt hvu, earlier_of_lt hwv, earlier_of_lt (lt_trans hwv hvu)]

instance : Std.Associative later where
  assoc u v w := by
    rcases le_or_lt u v with huv | hvu
    · rcases le_or_lt v w with hvw | hwv
      · rw [later_of_le huv, later_of_le hvw, later_of_le (le_trans huv hvw)]
      · rw [later_of_le huv, later_of_lt hwv, later_of_le huv]
    · rcases le_or_lt v w with hvw | hwv
      · rw [later_of_lt hvu, later_of_le hvw]
      · rw [later_of_lt hvu, later_of_lt hwv, later_of_lt hvu, later_of_lt (lt_trans hwv hvu)]

end Version

namespace Constraint

/-- The first constraint admits what one of the others admits, from the earlier of their bounds
on. -/
structure IsUnion (c d e : Constraint) : Prop where
  admits : ∀ v, c.admits v = (d.admits v || e.admits v)
  lowerBound : c.lowerBound = d.lowerBound.earlier e.lowerBound

/-- The first constraint admits what both others admit, from the later of their bounds on. -/
structure IsIntersection (c d e : Constraint) : Prop where
  admits : ∀ v, c.admits v = (d.admits v && e.admits v)
  lowerBound : c.lowerBound = d.lowerBound.later e.lowerBound

theorem isUnion_of_groups {c d e : Constraint} (hd : d.groups ≠ []) (he : e.groups ≠ [])
    (h : c.groups = d.groups ++ e.groups) : c.IsUnion d e where
  admits v := by simp [Constraint.admits, h]
  lowerBound := by
    obtain ⟨g, gs, hg⟩ := List.exists_cons_of_ne_nil hd
    obtain ⟨g', gs', hg'⟩ := List.exists_cons_of_ne_nil he
    simp only [Constraint.lowerBound, h, hg, hg', List.map_cons, List.cons_append, List.map_append,
      List.foldl_append, List.foldl_cons]
    exact List.foldl_assoc

theorem groupLowerBound_append {group group' : List Term} (h : group ≠ []) (h' : group' ≠ []) :
    groupLowerBound (group ++ group') =
      (groupLowerBound group).later (groupLowerBound group') := by
  obtain ⟨t, ts, rfl⟩ := List.exists_cons_of_ne_nil h
  obtain ⟨t', ts', rfl⟩ := List.exists_cons_of_ne_nil h'
  have hfold (ts : List Term) (v : Version) :
      ts.foldl (fun v t => v.later t.lowerBound) v =
        (ts.map Term.lowerBound).foldl Version.later v := List.foldl_map.symm
  simp only [groupLowerBound, List.cons_append, hfold, List.map_append, List.map_cons,
    List.foldl_append, List.foldl_cons]
  exact List.foldl_assoc

theorem isIntersection_of_groups {c d e : Constraint} {group group' : List Term}
    (hd : d.groups = [group]) (he : e.groups = [group']) (h : group ≠ []) (h' : group' ≠ [])
    (hc : c.groups = [group ++ group']) : c.IsIntersection d e where
  admits v := by simp [Constraint.admits, hc, hd, he, groupAdmits]
  lowerBound := by simp [Constraint.lowerBound, hc, hd, he, groupLowerBound_append h h']

/-! ## Constraints that are read -/

/-- Whether a text is one alternative and no hyphen range. -/
def IsTermList (s : Text) : Prop := '|' ∉ s ∧ ¬IsHyphenated s

instance (s : Text) : Decidable (IsTermList s) := inferInstanceAs (Decidable (_ ∧ _))

theorem readAlternatives_bars (a b : String) {groups : List (List Term)} :
    readAlternatives (a ++ "||" ++ b).toList = .ok groups ↔
      ∃ front back, readAlternatives a.toList = .ok front ∧ readAlternatives b.toList = .ok back ∧
        groups = front ++ back := by
  rw [← readAlternatives_append_bars]
  simp [String.toList_append]

theorem isUnion_of_parse {a b : String} {c d e : Constraint} (hc : parse (a ++ "||" ++ b) = .ok c)
    (hd : parse a = .ok d) (he : parse b = .ok e) : c.IsUnion d e := by
  obtain ⟨front, back, hfront, hback, hgroups⟩ :=
    (readAlternatives_bars a b).mp (parse_eq_ok_iff.mp hc).1
  obtain rfl : d.groups = front := Except.ok.inj ((parse_eq_ok_iff.mp hd).1.symm.trans hfront)
  obtain rfl : e.groups = back := Except.ok.inj ((parse_eq_ok_iff.mp he).1.symm.trans hback)
  exact isUnion_of_groups (groups_ne_nil hd) (groups_ne_nil he) hgroups

theorem ne_nil_of_parseAlternative {s : Text} (hs : ¬IsHyphenated s) {group : List Term}
    (h : parseAlternative s = .ok group) : group ≠ [] := by
  obtain ⟨hne, hterms⟩ := (parseAlternative_eq_ok_iff hs).mp h
  obtain ⟨text, htext⟩ := List.exists_mem_of_ne_nil _ hne
  obtain ⟨t, ht, -⟩ := (exists_of_mapM_eq_ok hterms).1 text htext
  exact List.ne_nil_of_mem ht

theorem exists_isIntersection {a b : String} {d e : Constraint} (hd : parse a = .ok d)
    (he : parse b = .ok e) (ha : IsTermList a.toList) (hb : IsTermList b.toList) {c : Char}
    (hc : isTermSep c = true) :
    ∃ f, parse (a ++ String.singleton c ++ b) = .ok f ∧ f.IsIntersection d e := by
  obtain ⟨group, hgroup, hdgroup⟩ :=
    (readAlternatives_of_no_bar ha.1).mp (parse_eq_ok_iff.mp hd).1
  obtain ⟨group', hgroup', hegroup⟩ :=
    (readAlternatives_of_no_bar hb.1).mp (parse_eq_ok_iff.mp he).1
  have hne := ne_nil_of_parseAlternative ha.2 hgroup
  have hne' := ne_nil_of_parseAlternative hb.2 hgroup'
  have hcbar : c ≠ '|' := by
    rintro rfl
    exact absurd hc (by decide)
  have hbar : '|' ∉ a.toList ++ c :: b.toList := by
    simp [ha.1, hb.1, Ne.symm hcbar]
  have htext : (a ++ String.singleton c ++ b).toList = a.toList ++ c :: b.toList := by
    simp [String.toList_append]
  have hread := (readAlternatives_of_no_bar hbar).mpr
    ⟨_, parseAlternative_append hc ha.2 hb.2 hgroup hgroup', rfl⟩
  rw [← htext] at hread
  obtain ⟨f, hf⟩ := exists_parse_iff.mpr ⟨_, hread⟩
  have hfgroups : f.groups = [group ++ group'] :=
    Except.ok.inj ((parse_eq_ok_iff.mp hf).1.symm.trans hread)
  exact ⟨f, hf, isIntersection_of_groups hdgroup hegroup hne hne' hfgroups⟩

/-- Two texts with two bars between them are a constraint if both are, and then it is the union of
the two; two lists of terms with a comma or a blank between them are the intersection of the
two. -/
theorem parse_composed (a b : String) :
    ((∃ c, parse (a ++ "||" ++ b) = .ok c) ↔
      (∃ d, parse a = .ok d) ∧ ∃ e, parse b = .ok e) ∧
    (∀ c d e, parse (a ++ "||" ++ b) = .ok c → parse a = .ok d → parse b = .ok e →
      c.IsUnion d e) ∧
    ∀ d e, parse a = .ok d → parse b = .ok e → IsTermList a.toList → IsTermList b.toList →
      ∀ seam ∈ [",", " "], ∃ c, parse (a ++ seam ++ b) = .ok c ∧ c.IsIntersection d e := by
  refine ⟨?_, fun c d e hc hd he => isUnion_of_parse hc hd he, ?_⟩
  · rw [exists_parse_iff, exists_parse_iff, exists_parse_iff]
    constructor
    · rintro ⟨groups, h⟩
      obtain ⟨front, back, hfront, hback, -⟩ := (readAlternatives_bars a b).mp h
      exact ⟨⟨front, hfront⟩, back, hback⟩
    · rintro ⟨⟨front, hfront⟩, back, hback⟩
      exact ⟨_, (readAlternatives_bars a b).mpr ⟨front, back, hfront, hback, rfl⟩⟩
  · intro d e hd he ha hb seam hseam
    simp only [List.mem_cons, List.not_mem_nil, or_false] at hseam
    rcases hseam with rfl | rfl
    · exact exists_isIntersection hd he ha hb (c := ',') (by decide)
    · exact exists_isIntersection hd he ha hb (c := ' ') (by decide)

/-- Two ranges that overlap, the one with blanks around its operator and a stability flag. -/
theorem parse_composed_overlapping :
    ∃ d e, parse " >= 6.4@dev" = .ok d ∧ parse "<6.6 !=6.5.1" = .ok e ∧
      (∃ c, parse (" >= 6.4@dev" ++ "||" ++ "<6.6 !=6.5.1") = .ok c ∧ c.IsUnion d e) ∧
      ∃ c, parse (" >= 6.4@dev" ++ "," ++ "<6.6 !=6.5.1") = .ok c ∧ c.IsIntersection d e := by
  obtain ⟨hiff, hunion, hseams⟩ := parse_composed " >= 6.4@dev" "<6.6 !=6.5.1"
  obtain ⟨d, hd, -⟩ := exists_ok_of_any (x := parse " >= 6.4@dev") (p := fun _ => true)
    (by decide +kernel)
  obtain ⟨e, he, -⟩ := exists_ok_of_any (x := parse "<6.6 !=6.5.1") (p := fun _ => true)
    (by decide +kernel)
  obtain ⟨c, hc⟩ := hiff.mpr ⟨⟨d, hd⟩, e, he⟩
  exact ⟨d, e, hd, he, ⟨c, hc, hunion c d e hc hd he⟩,
    hseams d e hd he (by decide +kernel) (by decide +kernel) "," (by simp)⟩

end Constraint

end ExtensionAudit
