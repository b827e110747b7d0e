import ExtensionAudit.Proofs.Version.LowerBound
import ExtensionAudit.Proofs.Version.SingleTerm
/-
  Constraints that ask for a version and all later ones: a text that is a single
  term with the operator `>=` is read as one range without an upper end, so with a
  version it admits every later one.

  Main statements: `groups_of_isAtLeast` and `admits_of_isAtLeast`.
-/

namespace ExtensionAudit.Constraint

/-- Whether a text is a single term with the operator `>=`. Blanks may stand around it and behind
the operator; the operand has no separator in it. -/
def IsAtLeast (s : Text) : Prop :=
  ∃ front gap operand back, s = front ++ ('>' :: '=' :: (gap ++ operand)) ++ back ∧
    (∀ c ∈ front ++ gap ++ back, isBlank c = true) ∧ operand ≠ [] ∧
    ∀ c ∈ operand, isBlank c = false ∧ c ≠ ',' ∧ c ≠ '|'

theorem dropFlag_atLeast (operand : Text) :
    ∃ operand', dropFlag ('>' :: '=' :: operand) = '>' :: '=' :: operand' := by
  rcases exists_of_dropFlag ('>' :: '=' :: operand) with h | ⟨flag, h⟩
  · exact ⟨operand, h⟩
  · -- the flag begins behind the operator
    match hd : dropFlag ('>' :: '=' :: operand) with
    | [] => simp [hd] at h
    | [c] => simp [hd] at h
    | c :: d :: operand' =>
      rw [hd] at h
      simp only [List.cons_append, List.cons.injEq] at h
      exact ⟨operand', by rw [← h.1, ← h.2.1]⟩

theorem parseTerm_atLeast {operand : Text} {t : Term}
    (h : parseTerm ('>' :: '=' :: operand) = .ok t) :
    ∃ b, t = .range (.inclusive b) .unbounded := by
  obtain ⟨operand', hdrop⟩ := dropFlag_atLeast operand
  simp only [parseTerm, hdrop, Operator.split] at h
  cases hx : Operand.parse operand' with
  | error e => simp [hx, bind, Except.bind] at h
  | ok x =>
    refine ⟨x.floor, ?_⟩
    simpa [hx, bind, Except.bind, Operator.term, eq_comm] using h

/-- A single term with the operator `>=` is read as one range without an upper end. -/
theorem groups_of_isAtLeast {s : String} {c : Constraint} (hs : IsAtLeast s.toList)
    (h : parse s = .ok c) : ∃ b, c.groups = [[.range (.inclusive b) .unbounded]] := by
  obtain ⟨front, gap, operand, back, hs, hblank, hne, hop⟩ := hs
  have hgap : ∀ c ∈ gap, isBlank c = true := fun c hc => hblank c (by simp [hc])
  have hblank : ∀ c ∈ front ++ back, isBlank c = true := by
    intro c hc
    rcases List.mem_append.mp hc with hc | hc
    · exact hblank c (by simp [hc])
    · exact hblank c (by simp [hc])
  have hsign : ∀ c ∈ ['>', '='], isOperatorEnd c = true := List.all_eq_true.mp (by decide)
  rw [parse_term hsign hgap (fun h => nomatch h) hop hs hblank hne] at h
  cases ht : parseTerm ('>' :: '=' :: operand) with
  | error e =>
    rw [show ['>', '='] ++ operand = '>' :: '=' :: operand from rfl, ht] at h
    cases h
  | ok t =>
    obtain ⟨b, rfl⟩ := parseTerm_atLeast ht
    rw [show ['>', '='] ++ operand = '>' :: '=' :: operand from rfl, ht] at h
    exact ⟨b, by rw [← Except.ok.inj h]⟩

/-- A version that it admits is admitted with every later one. -/
theorem admits_of_isAtLeast {s : String} {c : Constraint} (hs : IsAtLeast s.toList)
    (h : parse s = .ok c) {v w : Version} (hv : c.admits v = true) (hvw : v ≤ w) :
    c.admits w = true := by
  obtain ⟨b, hgroups⟩ := groups_of_isAtLeast hs h
  simp only [admits, hgroups, groupAdmits, List.any_cons, List.any_nil, List.all_cons,
    List.all_nil, Term.admits, Term.above, Term.below, Bool.and_true, Bool.or_false,
    decide_eq_true_eq] at hv ⊢
  exact Version.le_trans hv hvw

end ExtensionAudit.Constraint
