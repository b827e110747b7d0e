import ExtensionAudit.Proofs.Version.Alternatives
/-
  The texts that versions are shown as. A version that was read is shown as it was
  written, and a stable release by its segments, so both read back as themselves. A
  bound is shown by its segments and of the stabilities only as a development release,
  without its number: what is read back has the segments of the bound, but where the
  bound is another pre-release it is the stable version.

  Main statements: `parse_spelling_ofParts`, `computed_lowerBound` and `readsBack_iff`,
  with `not_readsBack_candidate` as the failure.
-/

namespace ExtensionAudit

theorem Text.trim_of_not_blank {s : Text} (hs : ∀ c ∈ s, isBlank c = false) : trim s = s := by
  cases s with
  | nil => rfl
  | cons c s =>
    have hlast : (c :: s).getLast?.all (! isBlank ·) = true := by
      rw [List.getLast?_eq_some_getLast (List.cons_ne_nil c s)]
      simp [hs _ (List.getLast_mem (List.cons_ne_nil c s))]
    exact trim_eq_self (by simp [hs c List.mem_cons_self]) hlast

theorem Text.trim_trim (s : Text) : trim (trim s) = trim s := by
  obtain ⟨front, back, hs, hfront, hback⟩ := exists_trim s
  have htrim : trim (front ++ trim s ++ back) = trim (trim s) := by
    rw [trim_append_blank _ hback, trim_of_blank_append hfront]
  rw [← htrim, ← hs]

namespace Version

/-- Whether what a version is shown as is read as the same version. -/
def ReadsBack (v : Version) : Prop := ∃ w, parse v.spelling = .ok w ∧ w.Same v

theorem readsBack_of_parse {s : String} {v : Version} (h : parse s = .ok v) : v.ReadsBack := by
  have hspelling : v.spelling = trimmed s := by
    obtain ⟨_, _, _, -, -, -, rfl⟩ := parse_eq_ok_iff.mp h
    rfl
  have htext : trimmed (trimmed s) = trimmed s := by simp [trimmed, Text.trim_trim]
  refine ⟨v, ?_, rfl⟩
  rw [hspelling]
  rw [parse_eq_ok_iff] at h ⊢
  rw [htext]
  simpa [trimmed, Text.trim_trim] using h

/-! ## Versions that are computed -/

def shownStability : Stability → Stability
  | .dev => .dev
  | _ => .stable

theorem toList_spelling_ofParts (parts : List Nat) (stability : Stability) (number : Nat) :
    (ofParts parts stability number).spelling.toList =
      Nat.toDigits 10 (parts.getD 0 0) ++
        (Spelling.dottedTail [parts.getD 1 0, parts.getD 2 0, parts.getD 3 0] ++
          if stability = .dev then "-dev".toList else []) := by
  by_cases hdev : stability = .dev <;>
    simp [ofParts, dotted, Spelling.dottedTail, hdev, String.toList_append]

theorem read?_spelling_ofParts (parts : List Nat) (stability : Stability) (number : Nat) :
    Spelling.read? false (ofParts parts stability number).spelling.toList =
      some ⟨Spelling.numerals [parts.getD 0 0, parts.getD 1 0, parts.getD 2 0, parts.getD 3 0],
        if stability = .dev then some ⟨.dev, none⟩ else none⟩ := by
  rw [toList_spelling_ofParts]
  by_cases hdev : stability = .dev
  · have hsuffix : Suffix.IsWritten ⟨.dev, none⟩ "-dev".toList :=
      Spelling.suffix?_eq_some_iff.mp (by decide)
    rw [if_pos hdev, if_pos hdev]
    exact Spelling.read?_numerals false _ (by simp) (.suffix hsuffix)
  · rw [if_neg hdev, if_neg hdev]
    exact Spelling.read?_numerals false _ (by simp) .nothing

/-- What a computed version is shown as is read as its segments, a development release or stable. -/
theorem parse_spelling_ofParts {parts : List Nat} (hlimit : ∀ n ∈ parts, n < segmentLimit)
    (stability : Stability) (number : Nat) :
    parse (ofParts parts stability number).spelling =
      .ok (ofParts parts (shownStability stability) 0) := by
  have hpart (i : Nat) : parts.getD i 0 < segmentLimit := by
    rw [List.getD_eq_getElem?_getD]
    cases hi : parts[i]? with
    | none => decide
    | some n => exact hlimit n (List.mem_of_getElem? hi)
  have hparts : ∀ n ∈ [parts.getD 0 0, parts.getD 1 0, parts.getD 2 0, parts.getD 3 0],
      n < segmentLimit := by
    intro n hn
    simp only [List.mem_cons, List.not_mem_nil, or_false] at hn
    rcases hn with rfl | rfl | rfl | rfl <;> exact hpart _
  have hread := read?_spelling_ofParts parts stability number
  have htrim : Text.trim (ofParts parts stability number).spelling.toList =
      (ofParts parts stability number).spelling.toList :=
    Text.trim_of_not_blank fun c hc =>
      (isOperandChar_apart ((Spelling.read?_sound hread).2 c hc)).1
  rw [← htrim] at hread
  refine parse_eq_ok_iff.mpr ⟨_, _, if stability = .dev then some (.dev, 0) else none, hread,
    segmentValues_numerals hparts, ?_, ?_⟩
  · by_cases hdev : stability = .dev <;> simp [hdev, Spelling.stability?, Suffix.value?]
  · rw [trimmed, htrim, String.ofList_toList]
    cases stability <;> rfl

/-- A version with parts that fit their segments, and a number only if it is a pre-release. -/
inductive Computed : Version → Prop
  | of_parts {parts : List Nat} {stability : Stability} {number : Nat}
      (lt_limit : ∀ n ∈ parts, n < segmentLimit) (number_eq : stability = .stable → number = 0) :
      Computed (ofParts parts stability number)

variable {v w : Version}

theorem computed_least : least.Computed := .of_parts (by simp) (by simp)

/-- A computed version is read with its segments, and as itself if it is stable or a development
release without a number. -/
theorem Computed.readsBack_iff_stability (h : v.Computed) :
    (∃ w, parse v.spelling = .ok w ∧ w.segments = v.segments) ∧
      (v.ReadsBack ↔ v.stability = .stable ∨ v.stability = .dev ∧ v.stabilityNumber = 0) := by
  obtain @⟨parts, stability, number, hlimit, hnumber⟩ := h
  have hparse := parse_spelling_ofParts hlimit stability number
  refine ⟨⟨_, hparse, rfl⟩, ?_⟩
  have hread : (ofParts parts stability number).ReadsBack ↔
      (shownStability stability).rank = stability.rank ∧ 0 = number := by
    simp only [ReadsBack, hparse, Except.ok.injEq, exists_eq_left']
    simp [Same, key, segments, ofParts]
  rw [hread]
  cases stability <;> simp_all [shownStability, Stability.rank, ofParts, eq_comm]

theorem Computed.later (hv : v.Computed) (hw : w.Computed) : (v.later w).Computed := by
  unfold Version.later
  split
  · exact hv
  · exact hw

theorem Computed.earlier (hv : v.Computed) (hw : w.Computed) : (v.earlier w).Computed := by
  unfold Version.earlier
  split
  · exact hw
  · exact hv

end Version

/-! ## Lower bounds -/

namespace Operand

variable {s : Text} {x : Operand}

theorem computed_floor (h : parse s = .ok x) : x.floor.Computed := by
  refine .of_parts (formed_of_parse h).lt_limit fun hstable => ?_
  cases hwritten : x.stability with
  | none => simp [hwritten] at hstable
  | some p => exact absurd (by simpa [hwritten] using hstable) (stability_of_parse h hwritten)

theorem computed_exact (h : parse s = .ok x) : x.exact.Computed := by
  refine .of_parts (formed_of_parse h).lt_limit fun hstable => ?_
  cases hwritten : x.stability with
  | none => rfl
  | some p => exact absurd (by simpa [hwritten] using hstable) (stability_of_parse h hwritten)

end Operand

/-- A term begins at the floor of its operand, at its exact version or at the least version. -/
theorem Operator.lowerBound_of_term {op : Operator} {x : Operand} {t : Term}
    (h : op.term x = .ok t) : t.lowerBound ∈ [x.floor, x.exact, .least] := by
  have hnext {index : Nat} (h : x.upToNext index = .ok t) : t.lowerBound = x.floor := by
    obtain ⟨upper, -, rfl⟩ := exists_of_map_eq_ok h
    rfl
  cases op with
  | tilde | caret => simp [hnext h]
  | equal =>
    simp only [term] at h
    split at h
    · split at h
      · cases h
        simp [Term.lowerBound]
      · simp [hnext h]
    · cases h
      simp [Term.lowerBound]
  | atLeast | greater | atMost | less | unequal =>
    cases h
    simp [Term.lowerBound]

namespace Constraint

theorem computed_of_parseTerm {text : Text} {t : Term} (h : parseTerm text = .ok t) :
    t.lowerBound.Computed := by
  rcases parseTerm_cases h with ⟨-, rfl⟩ | ⟨x, hx, hterm⟩
  · exact Version.computed_least
  · have hbound := Operator.lowerBound_of_term hterm
    simp only [List.mem_cons, List.not_mem_nil, or_false] at hbound
    rcases hbound with hbound | hbound | hbound <;> rw [hbound]
    · exact Operand.computed_floor hx
    · exact Operand.computed_exact hx
    · exact Version.computed_least

theorem computed_of_parseHyphen {low high : Text} {t : Term} (h : parseHyphen low high = .ok t) :
    t.lowerBound.Computed := by
  obtain ⟨x, upper, hx, rfl⟩ := exists_of_parseHyphen h
  exact Operand.computed_floor hx

theorem computed_groupLowerBound {group : List Term}
    (h : ∀ t ∈ group, t.lowerBound.Computed) : (groupLowerBound group).Computed := by
  cases group with
  | nil => exact Version.computed_least
  | cons t group =>
    obtain ⟨ht, h⟩ := List.forall_mem_cons.mp h
    exact List.foldlRecOn group _ ht fun v hv t ht => hv.later (h t ht)

/-- The lower bound of a constraint is a computed version. -/
theorem computed_lowerBound {s : String} {c : Constraint} (h : parse s = .ok c) :
    c.lowerBound.Computed := by
  have hterms := forall_terms_of_parse h (p := fun t => t.lowerBound.Computed)
    (fun _ _ _ => computed_of_parseHyphen) fun _ _ _ _ _ => computed_of_parseTerm
  have hgroups : ∀ v ∈ c.groups.map groupLowerBound, v.Computed := by
    intro v hv
    obtain ⟨group, hgroup, rfl⟩ := List.mem_map.mp hv
    exact computed_groupLowerBound (hterms group hgroup)
  unfold lowerBound
  split
  · exact Version.computed_least
  · rename_i v vs hbounds
    rw [hbounds, List.forall_mem_cons] at hgroups
    exact List.foldlRecOn vs _ hgroups.1 fun v hv w hw => hv.earlier (hgroups.2 w hw)

end Constraint

namespace Version

/-- A version that was read reads back, and so does a release. The lower bound of a constraint is
read with its segments, and as itself exactly if it is stable or a development release without a
number. -/
theorem readsBack_iff (v : Version) :
    (∀ s, parse s = .ok v → v.ReadsBack) ∧
    (∀ a b c d, (∀ n ∈ [a, b, c, d], n < segmentLimit) → v = release a b c d → v.ReadsBack) ∧
    ∀ s c, Constraint.parse s = .ok c → v = c.lowerBound →
      (∃ w, parse v.spelling = .ok w ∧ w.segments = v.segments) ∧
      (v.ReadsBack ↔ v.stability = .stable ∨ v.stability = .dev ∧ v.stabilityNumber = 0) := by
  refine ⟨fun s => readsBack_of_parse, ?_, ?_⟩
  · rintro a b c d hlimit rfl
    have hrelease : (release a b c d).Computed := .of_parts hlimit fun _ => rfl
    exact hrelease.readsBack_iff_stability.2.mpr (.inl rfl)
  · rintro s c hc rfl
    exact (Constraint.computed_lowerBound hc).readsBack_iff_stability

/-- A version with its mark and blanks around it, a release, and the bound of two alternatives. -/
theorem readsBack_iff_bounded :
    (∃ v, parse " v6.5-RC1 " = .ok v ∧ v.ReadsBack) ∧ (release 6 5 0 0).ReadsBack ∧
      ∃ c, Constraint.parse ">=6.5 || 6.4.1" = .ok c ∧ c.lowerBound.ReadsBack := by
  refine ⟨?_, (readsBack_iff (release 6 5 0 0)).2.1 6 5 0 0 (by decide) rfl, ?_⟩
  · obtain ⟨v, hv, -⟩ := exists_ok_of_any (x := parse " v6.5-RC1 ") (p := fun _ => true)
      (by decide +kernel)
    exact ⟨v, hv, (readsBack_iff v).1 " v6.5-RC1 " hv⟩
  · obtain ⟨c, hc, hstable⟩ := exists_ok_of_any (x := Constraint.parse ">=6.5 || 6.4.1")
      (p := fun c => c.lowerBound.stability = .stable) (by decide +kernel)
    exact ⟨c, hc, ((readsBack_iff c.lowerBound).2.2 ">=6.5 || 6.4.1" c hc rfl).2.mpr
      (.inl (of_decide_eq_true hstable))⟩

/-- A bound that is a release candidate is read as the stable version. -/
theorem not_readsBack_candidate :
    ∃ c, Constraint.parse ">=6.5.0-rc1" = .ok c ∧
      parse c.lowerBound.spelling = .ok (release 6 5 0 0) ∧ ¬c.lowerBound.ReadsBack := by
  obtain ⟨c, hc, hbound⟩ := exists_ok_of_any (x := Constraint.parse ">=6.5.0-rc1")
    (p := fun c => c.lowerBound = ofParts [6, 5, 0] .rc 1) (by decide +kernel)
  have hparse : parse (ofParts [6, 5, 0] .rc 1).spelling = .ok (release 6 5 0 0) :=
    parse_spelling_ofParts (by decide) .rc 1
  have hbound : c.lowerBound = ofParts [6, 5, 0] .rc 1 := of_decide_eq_true hbound
  refine ⟨c, hc, ?_⟩
  rw [hbound]
  refine ⟨hparse, ?_⟩
  rintro ⟨w, hw, hsame⟩
  obtain rfl := Except.ok.inj (hparse.symm.trans hw)
  exact absurd hsame (by decide)

end Version

end ExtensionAudit
