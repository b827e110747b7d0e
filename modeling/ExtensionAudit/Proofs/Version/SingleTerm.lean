import ExtensionAudit.Proofs.Text.Fields
import ExtensionAudit.Version.ConstraintSyntax
/-
  Constraints of one alternative. A text without a bar is one alternative, and one
  that is an operator with an operand behind it is one term, with or without blanks
  between the two; two operands with a hyphen between blanks are a hyphen range.

  Main statements: `parse_term` and `parse_hyphen`.
-/

namespace ExtensionAudit.Constraint

/-! ## Alternatives -/

theorem alternatives_of_no_bar {s : Text} (hs : ∀ c ∈ s, c ≠ '|') : alternatives s = [s] := by
  induction s with
  | nil => rfl
  | cons c s ih =>
    obtain ⟨hc, hs⟩ := List.forall_mem_cons.mp hs
    rw [alternatives]
    · rw [ih hs]
    · exact fun _ h => absurd h hc
    · exact fun h => absurd h hc

theorem parseAlternative_of_trim {s : Text} (h : Text.trim s = s) (hne : s ≠ []) :
    parseAlternative s = parseGroup s := by
  unfold parseAlternative
  rw [h]
  split
  · exact absurd rfl hne
  · rfl

theorem parse_alternative {s : String} {front text back : Text}
    (hs : s.toList = front ++ text ++ back) (hblank : ∀ c ∈ front ++ back, isBlank c = true)
    (hfirst : text.head?.any (! isBlank ·) = true) (hlast : text.getLast?.all (! isBlank ·) = true)
    (hbar : ∀ c ∈ text, c ≠ '|') :
    parse s = (parseGroup text).map fun group => ⟨[group], String.ofList text⟩ := by
  have hfront : ∀ c ∈ front, isBlank c = true := fun c hc => hblank c (by simp [hc])
  have hback : ∀ c ∈ back, isBlank c = true := fun c hc => hblank c (by simp [hc])
  have htrim : Text.trim s.toList = text := by
    rw [hs, Text.trim_of_blank hfront hback hfirst hlast]
  have htrim' : Text.trim text = text := Text.trim_eq_self hfirst hlast
  have hne : text ≠ [] := by
    rintro rfl
    cases hfirst
  have hempty : text.isEmpty = false := by simpa using hne
  simp only [parse, htrim, hempty, alternatives_of_no_bar hbar, List.mapM_cons, List.mapM_nil,
    parseAlternative_of_trim htrim' hne, Bool.false_eq_true, if_false]
  cases parseGroup text <;> rfl

/-! ## Single terms -/

section Term

variable {sign gap operand : Text} (hsign : ∀ c ∈ sign, isOperatorEnd c = true)
  (hgap : ∀ c ∈ gap, isBlank c = true) (hjoin : sign = [] → gap = [])
  (hop : ∀ c ∈ operand, isBlank c = false ∧ c ≠ ',' ∧ c ≠ '|')

theorem isBlank_of_isOperatorEnd {c : Char} (h : isOperatorEnd c = true) : isBlank c = false := by
  simp only [isOperatorEnd, Bool.or_eq_true, decide_eq_true_eq] at h
  rcases h with (((rfl | rfl) | rfl) | rfl) | rfl <;> decide

theorem joinOperators_of_blank {gap s : Text} (hg : ∀ c ∈ gap, isBlank c = true) :
    joinOperators true (gap ++ s) = joinOperators true s := by
  induction gap with
  | nil => rfl
  | cons c gap ih =>
    obtain ⟨hc, hg⟩ := List.forall_mem_cons.mp hg
    simp [joinOperators, hc, ih hg]

theorem joinOperators_of_not_blank {s : Text} (hs : ∀ c ∈ s, isBlank c = false) (after : Bool) :
    joinOperators after s = s := by
  induction s generalizing after with
  | nil => rfl
  | cons c s ih =>
    obtain ⟨hc, hs⟩ := List.forall_mem_cons.mp hs
    simp [joinOperators, hc, ih hs]

include hsign hgap in
theorem joinOperators_term (hoperand : ∀ c ∈ operand, isBlank c = false) {after : Bool}
    (hjoin : sign = [] → after = false → gap = []) :
    joinOperators after (sign ++ (gap ++ operand)) = sign ++ operand := by
  induction sign generalizing after with
  | nil =>
    cases after with
    | true => exact (joinOperators_of_blank hgap).trans (joinOperators_of_not_blank hoperand true)
    | false =>
      rw [hjoin rfl rfl]
      exact joinOperators_of_not_blank hoperand false
  | cons c sign ih =>
    obtain ⟨hc, hsign⟩ := List.forall_mem_cons.mp hsign
    have ih := @ih hsign true (fun _ h => nomatch h)
    simp only [List.cons_append, joinOperators, hc, isBlank_of_isOperatorEnd hc, Bool.and_false,
      Bool.false_eq_true, if_false, ih]

include hsign hgap hjoin hop

theorem words_term (hne : operand ≠ []) :
    (Text.words (sign ++ (gap ++ operand))).length ≤ 2 := by
  have hblank : ∀ c ∈ operand, isBlank c = false := fun c hc => (hop c hc).1
  have hsign : ∀ c ∈ sign, isBlank c = false := fun c hc => isBlank_of_isOperatorEnd (hsign c hc)
  cases gap with
  | nil =>
    have hword : ∀ c ∈ sign ++ operand, isBlank c = false := by
      intro c hc
      exact (List.mem_append.mp hc).elim (hsign c) (hblank c)
    rw [List.nil_append, Text.words, Text.fields_of_not_sep hword (by simp [hne])]
    simp
  | cons c gap =>
    obtain ⟨hc, hgap⟩ := List.forall_mem_cons.mp hgap
    have hne' : sign ≠ [] := fun h => nomatch hjoin h
    rw [List.cons_append, Text.words, Text.fields_append_of_sep hsign hne' hc,
      Text.fields_append_of_all_sep hgap, Text.fields_of_not_sep hblank hne]
    simp

theorem fields_term (hne : operand ≠ []) :
    Text.fields (fun c => c = ',' || isBlank c) (joinOperators false (sign ++ (gap ++ operand))) =
      [sign ++ operand] := by
  have hblank : ∀ c ∈ operand, isBlank c = false := fun c hc => (hop c hc).1
  rw [joinOperators_term hsign hgap hblank fun h _ => hjoin h]
  refine Text.fields_of_not_sep (fun c hc => ?_) (by simp [hne])
  rcases List.mem_append.mp hc with hc | hc
  · have hcomma : c ≠ ',' := by
      rintro rfl
      exact absurd (hsign _ hc) (by decide)
    simp [hcomma, isBlank_of_isOperatorEnd (hsign c hc)]
  · simp [hop c hc]

theorem parseGroup_term (hne : operand ≠ []) :
    parseGroup (sign ++ (gap ++ operand)) = (parseTerm (sign ++ operand)).map ([·]) := by
  have hwords := words_term hsign hgap hjoin hop hne
  unfold parseGroup
  split
  · rename_i heq
    rw [heq] at hwords
    simp at hwords
  · rw [fields_term hsign hgap hjoin hop hne]
    simp only [List.mapM_cons, List.mapM_nil]
    cases parseTerm (sign ++ operand) <;> rfl

/-- An operator and an operand are read as one term. -/
theorem parse_term {s : String} {front back : Text}
    (hs : s.toList = front ++ (sign ++ (gap ++ operand)) ++ back)
    (hblank : ∀ c ∈ front ++ back, isBlank c = true) (hne : operand ≠ []) :
    parse s = (parseTerm (sign ++ operand)).map fun t =>
      ⟨[[t]], String.ofList (sign ++ (gap ++ operand))⟩ := by
  have hfirst : (sign ++ (gap ++ operand)).head?.any (! isBlank ·) = true := by
    cases sign with
    | nil =>
      obtain ⟨c, operand, rfl⟩ := List.exists_cons_of_ne_nil hne
      simp [hjoin rfl, hop c List.mem_cons_self]
    | cons c sign => simp [isBlank_of_isOperatorEnd (hsign c List.mem_cons_self)]
  have hlast : (sign ++ (gap ++ operand)).getLast?.all (! isBlank ·) = true := by
    simp [List.getLast?_append, List.getLast?_eq_some_getLast hne, hop _ (List.getLast_mem hne)]
  have hbar : ∀ c ∈ sign ++ (gap ++ operand), c ≠ '|' := by
    rintro c hc rfl
    rcases List.mem_append.mp hc with hc | hc
    · exact absurd (hsign _ hc) (by decide)
    · rcases List.mem_append.mp hc with hc | hc
      · exact absurd (hgap _ hc) (by decide)
      · exact (hop _ hc).2.2 rfl
  rw [parse_alternative hs hblank hfirst hlast hbar, parseGroup_term hsign hgap hjoin hop hne]
  cases parseTerm (sign ++ operand) <;> rfl

end Term

theorem parse_word {s : String} {front word back : Text} (hs : s.toList = front ++ word ++ back)
    (hblank : ∀ c ∈ front ++ back, isBlank c = true)
    (hword : ∀ c ∈ word, isBlank c = false ∧ c ≠ ',' ∧ c ≠ '|') (hne : word ≠ []) :
    parse s = (parseTerm word).map fun t => ⟨[[t]], String.ofList word⟩ := by
  have hs : s.toList = front ++ ([] ++ ([] ++ word)) ++ back := hs
  exact parse_term (by simp) (by simp) (fun _ => rfl) hword hs hblank hne

theorem exists_of_dropFlag (s : Text) :
    dropFlag s = s ∨ ∃ flag, s = dropFlag s ++ '@' :: flag := by
  unfold dropFlag
  simp only
  split
  · rename_i front hdrop
    split
    · exact .inl rfl
    · right
      have h := List.takeWhile_append_dropWhile (p := Char.isAlpha) (l := s.reverse)
      rw [hdrop] at h
      refine ⟨(s.reverse.takeWhile Char.isAlpha).reverse, ?_⟩
      rw [← List.reverse_inj, List.reverse_append, List.reverse_cons, List.reverse_reverse,
        List.reverse_reverse, List.append_assoc]
      exact h.symm
  · exact .inl rfl

theorem dropFlag_of_no_flag {s : Text} (hs : ∀ c ∈ s, c ≠ '@') : dropFlag s = s := by
  rcases exists_of_dropFlag s with h | ⟨flag, h⟩
  · exact h
  · exact absurd rfl (hs '@' (h ▸ by simp))

/-! ## Hyphen ranges -/

/-- Two operands with a hyphen between blanks are read as a hyphen range. -/
theorem parse_hyphen {s : String} {front low gap gap' high back : Text}
    (hs : s.toList = front ++ (low ++ (gap ++ '-' :: (gap' ++ high))) ++ back)
    (hblank : ∀ c ∈ front ++ back, isBlank c = true)
    (hgap : ∀ c ∈ gap ++ gap', isBlank c = true) (hne : gap ≠ [] ∧ gap' ≠ [])
    (hop : ∀ c ∈ low ++ high, isBlank c = false ∧ c ≠ '|') (hop' : low ≠ [] ∧ high ≠ []) :
    parse s = (parseHyphen low high).map fun t =>
      ⟨[[t]], String.ofList (low ++ (gap ++ '-' :: (gap' ++ high)))⟩ := by
  have hlow : ∀ c ∈ low, isBlank c = false := fun c hc => (hop c (by simp [hc])).1
  have hhigh : ∀ c ∈ high, isBlank c = false := fun c hc => (hop c (by simp [hc])).1
  have hfirst : (low ++ (gap ++ '-' :: (gap' ++ high))).head?.any (! isBlank ·) = true := by
    obtain ⟨c, low, rfl⟩ := List.exists_cons_of_ne_nil hop'.1
    simp [hlow c List.mem_cons_self]
  have hlast : (low ++ (gap ++ '-' :: (gap' ++ high))).getLast?.all (! isBlank ·) = true := by
    simp [List.getLast?_append, List.getLast?_cons, List.getLast?_eq_some_getLast hop'.2,
      hhigh _ (List.getLast_mem hop'.2)]
  have hbar : ∀ c ∈ low ++ (gap ++ '-' :: (gap' ++ high)), c ≠ '|' := by
    rintro c hc rfl
    simp only [List.mem_append, List.mem_cons] at hc
    rcases hc with hc | hc | hc | hc | hc
    · exact (hop _ (List.mem_append_left _ hc)).2 rfl
    · exact absurd (hgap _ (List.mem_append_left _ hc)) (by decide)
    · exact absurd hc (by decide)
    · exact absurd (hgap _ (List.mem_append_right _ hc)) (by decide)
    · exact (hop _ (List.mem_append_right _ hc)).2 rfl
  -- blanks on both sides make a word of the hyphen
  have hwords : Text.words (low ++ (gap ++ '-' :: (gap' ++ high))) = [low, ['-'], high] := by
    obtain ⟨c, gap, rfl⟩ := List.exists_cons_of_ne_nil hne.1
    obtain ⟨c', gap', rfl⟩ := List.exists_cons_of_ne_nil hne.2
    have hc : isBlank c = true := hgap c (by simp)
    have hc' : isBlank c' = true := hgap c' (by simp)
    have hdash : ∀ d ∈ ['-'], isBlank d = false := by simp [isBlank]
    rw [Text.words, List.cons_append, Text.fields_append_of_sep hlow hop'.1 hc,
      Text.fields_append_of_all_sep fun d hd => hgap d (by simp [hd]),
      show '-' :: (c' :: gap' ++ high) = ['-'] ++ c' :: (gap' ++ high) from rfl,
      Text.fields_append_of_sep hdash (by simp) hc',
      Text.fields_append_of_all_sep fun d hd => hgap d (by simp [hd]),
      Text.fields_of_not_sep hhigh hop'.2]
  rw [parse_alternative hs hblank hfirst hlast hbar, parseGroup, hwords]
  simp only
  cases parseHyphen low high <;> rfl

end ExtensionAudit.Constraint
