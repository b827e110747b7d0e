import ExtensionAudit.Proofs.Version.Alternatives
import ExtensionAudit.Proofs.Version.LowerBound
/-
  The least version that a constraint admits. Without the operators `>` and `!=` every
  term is a range that begins at its lower end, so an alternative that admits some
  version admits its own lower bound, and every version from there up to that one. An
  alternative that admits none has a lower bound all the same. Where it lies below the
  bounds of the others, the lower bound of the constraint is not admitted.

  Main statement: `admits_lowerBound_iff`.
-/

namespace ExtensionAudit

namespace Term

/-- Whether a term is a range that begins at its lower end. -/
def IsClosedBelow : Term → Prop
  | .range (.exclusive _) _ => False
  | .range _ _ => True
  | .excluded _ => False

theorem below_of_le {upper : Bound} {v w : Version} (hv : below upper v = true) (hwv : w ≤ v) :
    below upper w = true := by
  cases upper with
  | unbounded => rfl
  | inclusive b => exact decide_eq_true (Version.le_trans hwv (of_decide_eq_true hv))
  | exclusive b => exact decide_eq_true (Version.lt_of_le_of_lt hwv (of_decide_eq_true hv))

/-- With a version a range that begins at its lower end admits those from there up to it. -/
theorem admits_of_between {t : Term} (ht : t.IsClosedBelow) {v w : Version}
    (hv : t.admits v = true) (hlow : t.lowerBound ≤ w) (hwv : w ≤ v) : t.admits w = true := by
  cases t with
  | excluded b => exact ht.elim
  | range lower upper =>
    have hbelow := below_of_le (Bool.and_eq_true_iff.mp hv).2 hwv
    cases lower with
    | unbounded => exact hbelow
    | exclusive b => exact ht.elim
    | inclusive b => exact Bool.and_eq_true_iff.mpr ⟨decide_eq_true hlow, hbelow⟩

end Term

theorem Operand.upToNext_isClosedBelow {x : Operand} {index : Nat} {t : Term}
    (h : x.upToNext index = .ok t) : t.IsClosedBelow := by
  obtain ⟨upper, -, rfl⟩ := exists_of_map_eq_ok h
  trivial

theorem Operator.term_isClosedBelow {op : Operator} (hgreater : op ≠ .greater)
    (hunequal : op ≠ .unequal) {x : Operand} {t : Term} (h : op.term x = .ok t) :
    t.IsClosedBelow := by
  cases op with
  | greater => exact absurd rfl hgreater
  | unequal => exact absurd rfl hunequal
  | tilde | caret => exact Operand.upToNext_isClosedBelow h
  | atLeast | atMost | less =>
    cases h
    trivial
  | equal =>
    simp only [Operator.term] at h
    split at h
    · split at h
      · cases h
        trivial
      · exact Operand.upToNext_isClosedBelow h
    · cases h
      trivial

namespace Constraint

/-- Whether a term of a text begins with an operator. -/
def UsesOperator (op : Operator) (s : Text) : Prop :=
  ∃ part ∈ alternatives s, ∃ text ∈ termTexts part, (Operator.split (dropFlag text)).1 = op

instance (op : Operator) (s : Text) : Decidable (UsesOperator op s) :=
  inferInstanceAs (Decidable (∃ part ∈ alternatives s, ∃ text ∈ termTexts part, _))

theorem parseTerm_isClosedBelow {text : Text} {t : Term} (h : parseTerm text = .ok t)
    (hgreater : (Operator.split (dropFlag text)).1 ≠ .greater)
    (hunequal : (Operator.split (dropFlag text)).1 ≠ .unequal) : t.IsClosedBelow := by
  rcases parseTerm_cases h with ⟨-, rfl⟩ | ⟨x, -, hterm⟩
  · trivial
  · exact Operator.term_isClosedBelow hgreater hunequal hterm

theorem parseHyphen_isClosedBelow {low high : Text} {t : Term} (h : parseHyphen low high = .ok t) :
    t.IsClosedBelow := by
  obtain ⟨x, upper, -, rfl⟩ := exists_of_parseHyphen h
  trivial

theorem isClosedBelow_of_parse {s : String} {c : Constraint} (h : parse s = .ok c)
    (hgreater : ¬UsesOperator .greater s.toList) (hunequal : ¬UsesOperator .unequal s.toList) :
    ∀ group ∈ c.groups, ∀ t ∈ group, t.IsClosedBelow := by
  refine forall_terms_of_parse h (fun _ _ _ => parseHyphen_isClosedBelow) ?_
  intro part hpart text htext t ht
  exact parseTerm_isClosedBelow ht (fun hop => hgreater ⟨part, hpart, text, htext, hop⟩)
    (fun hop => hunequal ⟨part, hpart, text, htext, hop⟩)

theorem groupAdmits_of_between {group : List Term} (hgroup : ∀ t ∈ group, t.IsClosedBelow)
    {v w : Version} (hv : groupAdmits group v = true) (hlow : groupLowerBound group ≤ w)
    (hwv : w ≤ v) : groupAdmits group w = true := by
  refine List.all_eq_true.mpr fun t ht => ?_
  exact Term.admits_of_between (hgroup t ht) (List.all_eq_true.mp hv t ht)
    (groupLowerBound_le_iff.mp hlow t ht) hwv

theorem exists_groupLowerBound_le {c : Constraint} (hc : c.groups ≠ []) :
    ∃ group ∈ c.groups, groupLowerBound group ≤ c.lowerBound := by
  obtain ⟨group, groups, hgroups⟩ := List.exists_cons_of_ne_nil hc
  rw [lowerBound, hgroups, List.map_cons]
  rcases (Version.foldl_earlier_le_iff _).mp (Version.le_refl _) with hle | ⟨v, hv, hle⟩
  · exact ⟨group, List.mem_cons_self, hle⟩
  · obtain ⟨group', hgroup', rfl⟩ := List.mem_map.mp hv
    exact ⟨group', List.mem_cons_of_mem _ hgroup', hle⟩

/-- Where every term begins at its lower end, the lower bound is admitted if one of the alternatives
that have this bound admits any version. -/
theorem admits_lowerBound_of_closed {c : Constraint}
    (hclosed : ∀ group ∈ c.groups, ∀ t ∈ group, t.IsClosedBelow) :
    c.admits c.lowerBound = true ↔ ∃ group ∈ c.groups, groupLowerBound group ≤ c.lowerBound ∧
      ∃ v, groupAdmits group v = true := by
  constructor
  · intro hadmits
    obtain ⟨group, hgroup, hv⟩ := List.any_eq_true.mp hadmits
    exact ⟨group, hgroup, groupLowerBound_le hv, c.lowerBound, hv⟩
  · rintro ⟨group, hgroup, hle, v, hv⟩
    have hlow : c.lowerBound ≤ v := lowerBound_le_of_mem hgroup (groupLowerBound_le hv)
    exact List.any_eq_true.mpr
      ⟨group, hgroup, groupAdmits_of_between (hclosed group hgroup) hv hle hlow⟩

/-- Without the operators `>` and `!=` the lower bound is admitted if one of the alternatives that
have this bound admits any version. If they all do, it is the least version that is admitted. -/
theorem admits_lowerBound_iff {s : String} {c : Constraint} (h : parse s = .ok c)
    (hgreater : ¬UsesOperator .greater s.toList) (hunequal : ¬UsesOperator .unequal s.toList) :
    (c.admits c.lowerBound = true ↔ ∃ group ∈ c.groups, groupLowerBound group ≤ c.lowerBound ∧
      ∃ v, groupAdmits group v = true) ∧
    ((∀ group ∈ c.groups, ∃ v, groupAdmits group v = true) →
      c.admits c.lowerBound = true ∧ ∀ v, c.admits v = true → c.lowerBound ≤ v) := by
  have hiff := admits_lowerBound_of_closed (isClosedBelow_of_parse h hgreater hunequal)
  refine ⟨hiff, fun hall => ⟨hiff.mpr ?_, fun v hv => lowerBound_le hv⟩⟩
  obtain ⟨group, hgroup, hle⟩ := exists_groupLowerBound_le (groups_ne_nil h)
  exact ⟨group, hgroup, hle, hall group hgroup⟩

/-- Two ranges, the earlier one closed above. -/
theorem admits_lowerBound_iff_satisfiable :
    ∃ c, parse ">=6.5 <6.6 || ^6.7.1" = .ok c ∧ c.admits c.lowerBound = true := by
  obtain ⟨c, hc, hadmits⟩ := exists_ok_of_any (x := parse ">=6.5 <6.6 || ^6.7.1")
    (p := fun c => c.groups.any fun group => groupLowerBound group ≤ c.lowerBound ∧
      groupAdmits group (Version.release 6 5 0 0) = true) (by decide +kernel)
  obtain ⟨group, hgroup, hv⟩ := List.any_eq_true.mp hadmits
  obtain ⟨hle, hv⟩ := of_decide_eq_true hv
  exact ⟨c, hc, (admits_lowerBound_iff hc (by decide +kernel) (by decide +kernel)).1.mpr
    ⟨group, hgroup, hle, _, hv⟩⟩

/-- The first alternative admits no version, and its bound lies below what the second admits. -/
theorem lowerBound_of_unsatisfiable :
    ∃ c, parse ">=6.4 <6.4 || ~6.5.0" = .ok c ∧
      ¬UsesOperator .greater ">=6.4 <6.4 || ~6.5.0".toList ∧
      ¬UsesOperator .unequal ">=6.4 <6.4 || ~6.5.0".toList ∧
      (∃ v, c.admits v = true) ∧ c.admits c.lowerBound = false := by
  obtain ⟨c, hc, hp⟩ := exists_ok_of_any (x := parse ">=6.4 <6.4 || ~6.5.0")
    (p := fun c => c.admits (Version.release 6 5 0 0) && !c.admits c.lowerBound) (by decide +kernel)
  obtain ⟨hadmits, hbound⟩ := Bool.and_eq_true_iff.mp hp
  exact ⟨c, hc, by decide +kernel, by decide +kernel, ⟨_, hadmits⟩, by simpa using hbound⟩

end Constraint

end ExtensionAudit
