import ExtensionAudit.Text.Blank
/-
  Trimming and splitting. A text between blanks is what trimming leaves, a
  separator ends a field, and a run of separators is as good as one.

  Main statements: `trim_of_blank`, `fields_cons_of_sep`, `fields_append_of_sep` and
  `fields_append_cons`.
-/

namespace ExtensionAudit.Text

/-! ## Trimming -/

theorem trimStart_of_blank {front s : Text} (hf : ∀ c ∈ front, isBlank c = true)
    (hs : s.head?.all (! isBlank ·) = true) : trimStart (front ++ s) = s := by
  rw [trimStart, List.dropWhile_append_of_pos hf]
  cases s with
  | nil => rfl
  | cons c s => simp_all

theorem trimEnd_of_blank {s back : Text} (hb : ∀ c ∈ back, isBlank c = true)
    (hs : s.getLast?.all (! isBlank ·) = true) : trimEnd (s ++ back) = s := by
  have hb' : ∀ c ∈ back.reverse, isBlank c = true := by simpa using hb
  have hs' : s.reverse.head?.all (! isBlank ·) = true := by simpa using hs
  have h := trimStart_of_blank hb' hs'
  rw [trimStart] at h
  rw [trimEnd, List.reverse_append, h, List.reverse_reverse]

/-- Trimming takes away the blanks around a text that neither begins nor ends with one. -/
theorem trim_of_blank {front s back : Text} (hf : ∀ c ∈ front, isBlank c = true)
    (hb : ∀ c ∈ back, isBlank c = true) (hfirst : s.head?.any (! isBlank ·) = true)
    (hlast : s.getLast?.all (! isBlank ·) = true) : trim (front ++ s ++ back) = s := by
  have hhead : (s ++ back).head?.all (! isBlank ·) = true := by
    cases s with
    | nil => cases hfirst
    | cons c s => simpa using hfirst
  rw [trim, List.append_assoc, trimStart_of_blank hf hhead, trimEnd_of_blank hb hlast]

theorem trim_eq_self {s : Text} (hfirst : s.head?.any (! isBlank ·) = true)
    (hlast : s.getLast?.all (! isBlank ·) = true) : trim s = s := by
  have hnone : ∀ c ∈ ([] : Text), isBlank c = true := by simp
  simpa using trim_of_blank hnone hnone hfirst hlast

theorem exists_trim (s : Text) : ∃ front back, s = front ++ trim s ++ back ∧
    (∀ c ∈ front, isBlank c = true) ∧ ∀ c ∈ back, isBlank c = true := by
  have hstart := List.takeWhile_append_dropWhile (p := isBlank) (l := s)
  have hend := List.takeWhile_append_dropWhile (p := isBlank) (l := (trimStart s).reverse)
  have hblank (t : Text) : ∀ c ∈ t.takeWhile isBlank, isBlank c = true :=
    fun c hc => List.all_eq_true.mp List.all_takeWhile c hc
  refine ⟨s.takeWhile isBlank, ((trimStart s).reverse.takeWhile isBlank).reverse, ?_, hblank s, ?_⟩
  · rw [trim, trimEnd, List.append_assoc, ← List.reverse_append, hend, List.reverse_reverse,
      trimStart, hstart]
  · intro c hc
    exact hblank _ c (List.mem_reverse.mp hc)

/-! ## Fields -/

variable {sep : Char → Bool}

theorem splitAt_of_not_sep {s : Text} (hs : ∀ c ∈ s, sep c = false) : splitAt sep s = [s] := by
  induction s with
  | nil => rfl
  | cons c s ih =>
    obtain ⟨hc, hs⟩ := List.forall_mem_cons.mp hs
    simp [splitAt, hc, ih hs]

theorem splitAt_append_cons {c : Char} (hc : sep c = true) (s r : Text) :
    splitAt sep (s ++ c :: r) = splitAt sep s ++ splitAt sep r := by
  induction s with
  | nil => simp [splitAt, hc]
  | cons d s ih =>
    by_cases hd : sep d = true
    · simp [splitAt, hd, ih]
    · obtain ⟨part, parts, hparts⟩ := List.exists_cons_of_ne_nil (splitAt_ne_nil sep s)
      simp [splitAt, hd, ih, hparts]

theorem splitAt_append_of_sep {s r : Text} {c : Char} (hs : ∀ d ∈ s, sep d = false)
    (hc : sep c = true) : splitAt sep (s ++ c :: r) = s :: splitAt sep r := by
  rw [splitAt_append_cons hc, splitAt_of_not_sep hs]
  rfl

theorem not_sep_of_mem_splitAt {s part : Text} {c : Char} (hpart : part ∈ splitAt sep s)
    (hc : c ∈ part) : sep c = false := by
  induction s generalizing part with
  | nil =>
    obtain rfl : part = [] := by simpa [splitAt] using hpart
    cases hc
  | cons d s ih =>
    obtain ⟨first, parts, hparts⟩ := List.exists_cons_of_ne_nil (splitAt_ne_nil sep s)
    by_cases hd : sep d = true
    · simp only [splitAt, hd, if_true, List.mem_cons] at hpart
      rcases hpart with rfl | hpart
      · cases hc
      · exact ih hpart hc
    · simp only [splitAt, hd, hparts, Bool.false_eq_true, if_false, List.mem_cons] at hpart
      rw [hparts] at ih
      rcases hpart with rfl | hpart
      · rcases List.mem_cons.mp hc with rfl | hc
        · simpa using hd
        · exact ih List.mem_cons_self hc
      · exact ih (List.mem_cons_of_mem _ hpart) hc

theorem splitAt_concat_of_sep {c : Char} (hc : sep c = true) (s : Text) :
    splitAt sep (s ++ [c]) = splitAt sep s ++ [[]] := by
  rw [splitAt_append_cons hc]
  rfl

theorem fields_of_not_sep {s : Text} (hs : ∀ c ∈ s, sep c = false) (hne : s ≠ []) :
    fields sep s = [s] := by
  simp [fields, splitAt_of_not_sep hs, hne]

theorem fields_cons_of_sep {c : Char} {r : Text} (hc : sep c = true) :
    fields sep (c :: r) = fields sep r := by
  simp [fields, splitAt, hc]

theorem fields_append_of_all_sep {gap r : Text} (hg : ∀ c ∈ gap, sep c = true) :
    fields sep (gap ++ r) = fields sep r := by
  induction gap with
  | nil => rfl
  | cons c gap ih =>
    obtain ⟨hc, hg⟩ := List.forall_mem_cons.mp hg
    rw [List.cons_append, fields_cons_of_sep hc, ih hg]

/-- A separator ends the field in front of it. -/
theorem fields_append_of_sep {s r : Text} {c : Char} (hs : ∀ d ∈ s, sep d = false)
    (hne : s ≠ []) (hc : sep c = true) : fields sep (s ++ c :: r) = s :: fields sep r := by
  simp [fields, splitAt_append_of_sep hs hc, hne]

theorem fields_append_cons {c : Char} (hc : sep c = true) (s r : Text) :
    fields sep (s ++ c :: r) = fields sep s ++ fields sep r := by
  simp [fields, splitAt_append_cons hc]

theorem fields_append_all_sep (s : Text) {gap : Text} (hg : ∀ c ∈ gap, sep c = true) :
    fields sep (s ++ gap) = fields sep s := by
  cases gap with
  | nil => rw [List.append_nil]
  | cons c gap =>
    obtain ⟨hc, hg⟩ := List.forall_mem_cons.mp hg
    have hnone := fields_append_of_all_sep (r := []) hg
    rw [fields_append_cons hc, ← List.append_nil gap, hnone]
    simp [fields, splitAt]

theorem exists_mem_fields_concat {c : Char} (hc : sep c = false) (s : Text) :
    ∃ front, front ++ [c] ∈ fields sep (s ++ [c]) := by
  induction s with
  | nil => exact ⟨[], by simp [fields, splitAt, hc]⟩
  | cons d s ih =>
    obtain ⟨front, hfront⟩ := ih
    by_cases hd : sep d = true
    · exact ⟨front, by rwa [List.cons_append, fields_cons_of_sep hd]⟩
    · obtain ⟨part, parts, hparts⟩ := List.exists_cons_of_ne_nil (splitAt_ne_nil sep (s ++ [c]))
      simp only [fields, hparts, List.mem_filter, List.mem_cons] at hfront
      simp only [fields, List.cons_append, splitAt, hd, hparts, Bool.false_eq_true, if_false,
        List.mem_filter, List.mem_cons]
      obtain ⟨rfl | hmem, -⟩ := hfront
      · exact ⟨d :: front, by simp⟩
      · exact ⟨front, by simp [hmem]⟩

theorem exists_of_splitAt_cons {s part : Text} {parts : List Text}
    (h : splitAt sep s = part :: parts) : ∃ r, s = part ++ r ∧ r.head?.all sep = true := by
  induction s generalizing part parts with
  | nil =>
    simp only [splitAt, List.cons.injEq] at h
    exact ⟨[], by simp [← h.1], rfl⟩
  | cons d s ih =>
    by_cases hd : sep d = true
    · simp only [splitAt, hd, if_true, List.cons.injEq] at h
      exact ⟨d :: s, by simp [← h.1], by simpa using hd⟩
    · obtain ⟨first, others, hothers⟩ := List.exists_cons_of_ne_nil (splitAt_ne_nil sep s)
      simp only [splitAt, hd, hothers, Bool.false_eq_true, if_false, List.cons.injEq] at h
      obtain ⟨r, hs, hr⟩ := ih hothers
      exact ⟨r, by rw [← h.1, hs, List.cons_append], hr⟩

theorem exists_of_mem_fields {s field : Text} (h : field ∈ fields sep s) :
    ∃ front r, s = front ++ field ++ r ∧ r.head?.all sep = true := by
  have hmem : field ∈ splitAt sep s := (List.mem_filter.mp h).1
  clear h
  induction s with
  | nil => exact ⟨[], [], by simpa [splitAt, eq_comm] using hmem, rfl⟩
  | cons d s ih =>
    obtain ⟨part, parts, hparts⟩ := List.exists_cons_of_ne_nil (splitAt_ne_nil sep (d :: s))
    obtain ⟨r, hs, hr⟩ := exists_of_splitAt_cons hparts
    rw [hparts, List.mem_cons] at hmem
    rcases hmem with rfl | hmem
    · exact ⟨[], r, by simpa using hs, hr⟩
    · have hrest : field ∈ splitAt sep s := by
        by_cases hd : sep d = true
        · simp only [splitAt, hd, if_true, List.cons.injEq] at hparts
          rwa [hparts.2]
        · obtain ⟨first, others, hothers⟩ := List.exists_cons_of_ne_nil (splitAt_ne_nil sep s)
          simp only [splitAt, hd, hothers, Bool.false_eq_true, if_false, List.cons.injEq] at hparts
          rw [hothers, hparts.2]
          exact List.mem_cons_of_mem _ hmem
      obtain ⟨front, r, hs, hr⟩ := ih hrest
      exact ⟨d :: front, r, by rw [hs]; simp, hr⟩

end ExtensionAudit.Text
