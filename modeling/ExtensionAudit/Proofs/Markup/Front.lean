import ExtensionAudit.Markup.Token
import ExtensionAudit.Proofs.Markup.Reading
/-
  What texts begin with. The front of a text is known by its first characters: by
  a letter behind `<` or `</`, by the opener of a verbatim construct, and a run of
  plain text by the character behind the run.

  Main statements: `front_plain_rest` and `front_verbatim_rest`, a text that was
  taken begins the same in front of another rest.
-/

namespace ExtensionAudit.Markup

/-! ## What a token begins with -/

theorem front_tag {r : Text} : front ('<' :: r) = tagFront ('<' :: r) := by
  have ht : twig? ('<' :: r) = none := twig?_of_ne_brace (by decide)
  simp [front, ht]

theorem isAlpha_ne {c d : Char} (h : c.isAlpha = true) (hd : d.isAlpha = false) : c ≠ d := by
  rintro rfl
  rw [h] at hd
  cases hd

theorem tagFront_alpha {c : Char} {r : Text} (h : c.isAlpha = true) :
    tagFront ('<' :: c :: r) = .startTag := by
  have h1 : c ≠ '!' := isAlpha_ne h (by decide)
  have h2 : c ≠ '?' := isAlpha_ne h (by decide)
  have h3 : c ≠ '/' := isAlpha_ne h (by decide)
  unfold tagFront
  split <;> simp_all

theorem tagFront_slash_alpha {c : Char} {r : Text} (h : c.isAlpha = true) :
    tagFront ('<' :: '/' :: c :: r) = .endTag := by
  simp [tagFront, h]

theorem exists_of_tagFront_startTag {r : Text} (h : tagFront ('<' :: r) = .startTag) :
    ∃ c r', r = c :: r' ∧ c.isAlpha = true := by
  unfold tagFront at h
  split at h
  · cases h
  · cases h
  · cases h
  · split at h <;> cases h
  · rename_i c r' _ _ _ _ heq
    split at h
    · rename_i hc
      exact ⟨c, r', by simpa using heq, hc⟩
    · cases h
  · cases h

theorem exists_of_tagFront_endTag {r : Text} (h : tagFront ('<' :: r) = .endTag) :
    ∃ c r', r = '/' :: c :: r' ∧ c.isAlpha = true := by
  unfold tagFront at h
  split at h
  · cases h
  · cases h
  · cases h
  · rename_i c r' heq
    split at h
    · rename_i hc
      exact ⟨c, r', by simpa using heq, hc⟩
    · cases h
  · split at h <;> cases h
  · cases h

theorem tagFront_eq_plain_iff {c : Char} {r : Text} :
    tagFront (c :: r) = .plain ↔
      (c = '<' → r.head? ≠ some '!' ∧ r.head? ≠ some '?' ∧ r.head?.any Char.isAlpha = false ∧
        (r.head? = some '/' → r.tail.head?.any Char.isAlpha = false)) := by
  by_cases hc : c = '<'
  · subst hc
    -- `<` alone, `</` and `<` in front of something else are plain text of their own
    have hslash : Char.isAlpha '/' = false := by decide
    unfold tagFront
    split
    · simp_all
    · simp_all
    · simp_all
    · rename_i d r' heq
      obtain rfl : r = '/' :: d :: r' := by simpa using heq
      cases hd : d.isAlpha <;> simp [hd, hslash]
    · rename_i d r' _ hbang hquestion hno heq
      obtain rfl : r = d :: r' := by simpa using heq
      have h1 : d ≠ '!' := by
        rintro rfl
        exact hbang rfl
      have h2 : d ≠ '?' := by
        rintro rfl
        exact hquestion rfl
      have h3 : d = '/' → r' = [] := by
        rintro rfl
        cases r' with
        | nil => rfl
        | cons e r'' => exact (hno e r'' rfl rfl).elim
      cases hd : d.isAlpha
      · simp only [List.head?_cons, Option.some.injEq, ne_eq, h1, h2, Option.any_some, hd]
        simp +contextual [h3]
      · simp [hd]
    · rename_i hno
      cases r with
      | nil => simp
      | cons d r' => exact (hno d r' rfl).elim
  · simp only [hc, false_implies, iff_true]
    unfold tagFront
    split <;> simp_all

/-! ## Text -/

theorem twig?_of_head?_eq {c : Char} {r r' : Text} (h : r'.head? = r.head?) :
    twig? (c :: r') = twig? (c :: r) := by
  cases r with
  | nil =>
    rw [List.head?_nil, List.head?_eq_none_iff] at h
    rw [h]
  | cons d r =>
    obtain ⟨r'', rfl⟩ := List.head?_eq_some_iff.mp h
    exact twig?_cons_cons c d _ _

theorem head?_append_of_head?_eq {s r r' : Text} (h : r'.head? = r.head?) :
    (s ++ r').head? = (s ++ r).head? := by
  cases s with
  | nil => exact h
  | cons c s => rfl

/-- A run of plain text is one in front of any rest that begins like the one it was read in
front of. -/
theorem front_plain_rest {c : Char} {s r r' : Text} (hr : Text.endsRun isPlain r = true)
    (hhead : r'.head? = r.head?) (h : front (c :: (s ++ r)) = .plain) :
    front (c :: (s ++ r')) = .plain := by
  have htwig : twig? (c :: (s ++ r)) = none := by
    cases ht : twig? (c :: (s ++ r)) with
    | none => rfl
    | some v => simp [front, ht] at h
  have htwig' : twig? (c :: (s ++ r')) = none := by
    rw [twig?_of_head?_eq (head?_append_of_head?_eq hhead), htwig]
  simp only [front, htwig, tagFront_eq_plain_iff] at h
  simp only [front, htwig', tagFront_eq_plain_iff]
  intro hc
  obtain ⟨hbang, hquestion, halpha, hslash⟩ := h hc
  rw [head?_append_of_head?_eq hhead]
  refine ⟨hbang, hquestion, halpha, fun hs => ?_⟩
  cases s with
  | nil =>
    -- the rest begins with `<` or `{`, if with anything
    rw [List.nil_append] at hs
    have : isPlain '/' = false := by simpa [Text.endsRun, hs] using hr
    exact absurd this (by decide)
  | cons d s =>
    have := hslash hs
    rw [List.cons_append, List.tail_cons] at this ⊢
    rw [head?_append_of_head?_eq hhead, this]

theorem tagFront_declaration {r : Text} (h : ¬['-', '-'] <+: r) :
    tagFront ('<' :: '!' :: r) = .verbatim ⟨0, ['>'], .declaration⟩ := by
  unfold tagFront
  split
  · rename_i r' heq
    obtain rfl : r = '-' :: '-' :: r' := by simpa using heq
    exact absurd ⟨r', rfl⟩ h
  · rfl
  · simp_all
  · simp_all
  · grind
  · simp_all

theorem exists_of_tagFront_verbatim {s : Text} {v : Verbatim} (h : tagFront s = .verbatim v) :
    (∃ r, s = ['<', '!', '-', '-'] ++ r ∧ v = ⟨0, ['-', '-', '>'], .comment⟩) ∨
      (∃ r, s = ['<', '!'] ++ r ∧ ¬['-', '-'] <+: r ∧ v = ⟨0, ['>'], .declaration⟩) ∨
      (∃ r, s = ['<', '?'] ++ r ∧ v = ⟨0, ['>'], .declaration⟩) := by
  unfold tagFront at h
  split at h
  · cases h
    exact .inl ⟨_, rfl, rfl⟩
  · rename_i r hno
    cases h
    refine .inr (.inl ⟨r, rfl, ?_, rfl⟩)
    rintro ⟨r', rfl⟩
    exact hno r' rfl
  · cases h
    exact .inr (.inr ⟨_, rfl, rfl⟩)
  · split at h <;> cases h
  · split at h <;> cases h
  · cases h

theorem exists_append_of_opener {opener a b r : Text} (ho : '>' ∉ opener) (ha : '>' ∈ a)
    (h : a ++ b = opener ++ r) : ∃ a', a = opener ++ a' ∧ r = a' ++ b := by
  have ha' : a <+: opener ++ r := ⟨b, h⟩
  rcases List.prefix_or_prefix_of_prefix ha' (List.prefix_append opener r) with hp | ⟨a', rfl⟩
  · exact absurd (hp.subset ha) ho
  · exact ⟨a', rfl, by simpa using h.symm⟩

theorem tagFront_verbatim_rest {v : Verbatim} {s a b : Text} (hf : tagFront s = .verbatim v)
    (h : v.take s = .ok (a, b)) (b' : Text) : tagFront (a ++ b') = .verbatim v := by
  have happend := Verbatim.take_append h
  have hsuffix := Verbatim.take_suffix (tagFront_verbatim hf) h
  rcases exists_of_tagFront_verbatim hf with ⟨r, rfl, rfl⟩ | ⟨r, rfl, hr, rfl⟩ | ⟨r, rfl, rfl⟩
  · obtain ⟨a', rfl, -⟩ := exists_append_of_opener (by decide) (hsuffix.subset (by simp)) happend
    rfl
  · have hgt : '>' ∈ a := hsuffix.subset (by simp)
    obtain ⟨a', rfl, rfl⟩ := exists_append_of_opener (by decide) hgt happend
    refine tagFront_declaration fun hp => ?_
    rcases List.prefix_or_prefix_of_prefix hp (List.prefix_append a' b') with hp' | hp'
    · exact hr (hp'.trans (List.prefix_append a' b))
    · have : '>' ∈ ['-', '-'] := hp'.subset (by simpa using hgt)
      exact absurd this (by decide)
  · obtain ⟨a', rfl, -⟩ := exists_append_of_opener (by decide) (hsuffix.subset (by simp)) happend
    rfl

theorem front_verbatim_rest {v : Verbatim} {s a b : Text} (hf : front s = .verbatim v)
    (h : v.take s = .ok (a, b)) (b' : Text) : front (a ++ b') = .verbatim v := by
  unfold front at hf
  split at hf
  · rename_i w hw
    cases hf
    simp [front, twig?_rest hw h b']
  · have htag := tagFront_verbatim_rest hf h b'
    have hc : ∃ r, a ++ b' = '<' :: r := by
      rcases exists_of_tagFront_verbatim htag with ⟨r, hr, -⟩ | ⟨r, hr, -⟩ | ⟨r, hr, -⟩ <;>
        exact ⟨_, hr⟩
    obtain ⟨r, hr⟩ := hc
    rw [hr] at htag ⊢
    rw [front_tag, htag]

end ExtensionAudit.Markup
