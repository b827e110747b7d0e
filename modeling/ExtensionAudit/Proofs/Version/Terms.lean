import ExtensionAudit.Proofs.Results
import ExtensionAudit.Proofs.Version.OperandText
import ExtensionAudit.Proofs.Version.SingleTerm
/-
  The terms of an alternative. An alternative that is no hyphen range is read term by
  term. A term that is read ends with no operator and with no hyphen, so a separator
  behind it neither joins it to what follows nor makes a hyphen range of the two: the
  terms on both sides of a separator are the terms of the whole.

  Main statements: `parseAlternative_eq_ok_iff`, `parseTerm_cases` and
  `parseAlternative_append`.
-/

namespace ExtensionAudit

theorem Text.words_trim (s : Text) : Text.words (Text.trim s) = Text.words s := by
  obtain ⟨front, back, hs, hfront, hback⟩ := Text.exists_trim s
  have hwords : Text.words (front ++ Text.trim s ++ back) = Text.words (Text.trim s) := by
    rw [Text.words, Text.fields_append_all_sep _ hback, Text.fields_append_of_all_sep hfront,
      Text.words]
  rw [← hwords, ← hs]

/-! ## The end of a term -/

theorem Operator.split_suffix (s : Text) : (Operator.split s).2 <:+ s := by
  unfold Operator.split
  split
  case h_1 | h_2 | h_3 | h_4 => exact (List.suffix_cons _ _).trans (List.suffix_cons _ _)
  case h_10 => exact List.suffix_rfl
  all_goals exact List.suffix_cons _ _

namespace Constraint

/-- Whether a character stands between the terms of an alternative. -/
def isTermSep (c : Char) : Bool := c = ',' || isBlank c

/-- The texts of the terms of an alternative, without the blanks behind operators. -/
def termTexts (s : Text) : List Text := Text.fields isTermSep (joinOperators false s)

/-- Whether an alternative is written as a hyphen range: three words, a hyphen between the other
two. -/
def IsHyphenated (s : Text) : Prop := ∃ low high, Text.words s = [low, ['-'], high]

instance (s : Text) : Decidable (IsHyphenated s) :=
  decidable_of_iff
    (Text.words s = [(Text.words s).headD [], ['-'], (Text.words s).getLastD []]) <| by
    constructor
    · exact fun h => ⟨_, _, h⟩
    · rintro ⟨low, high, h⟩
      rw [h]
      rfl

theorem isTermSep_of_isOperatorEnd {c : Char} (h : isOperatorEnd c = true) :
    isTermSep c = false := by
  have hcomma : c ≠ ',' := by
    rintro rfl
    exact absurd h (by decide)
  simp [isTermSep, hcomma, isBlank_of_isOperatorEnd h]

theorem dropFlag_of_getLast? {s : Text} {c : Char} (hs : s.getLast? = some c)
    (hc : c.isAlpha = false) : dropFlag s = s := by
  obtain ⟨front, rfl⟩ := List.getLast?_eq_some_iff.mp hs
  have hdrop : (front ++ [c]).reverse.dropWhile Char.isAlpha = c :: front.reverse := by
    simp [hc]
  have htake : (front ++ [c]).reverse.takeWhile Char.isAlpha = [] := by simp [hc]
  unfold dropFlag
  simp only [hdrop, htake]
  split <;> rfl

/-- A term that is read is a lone wildcard, or an operator and an operand. -/
theorem parseTerm_cases {s : Text} {t : Term} (h : parseTerm s = .ok t) :
    dropFlag s ∈ [[], ['*'], ['x'], ['X']] ∧ t = .range .unbounded .unbounded ∨
      ∃ x, Operand.parse (Operator.split (dropFlag s)).2 = .ok x ∧
        (Operator.split (dropFlag s)).1.term x = .ok t := by
  unfold parseTerm at h
  simp only at h
  split at h
  · rename_i hlone
    left
    cases h
    simp only [Bool.or_eq_true, List.isEmpty_iff, decide_eq_true_eq] at hlone
    rcases hlone with ((hlone | hlone) | hlone) | hlone <;> simp [hlone]
  · right
    cases hx : Operand.parse (Operator.split (dropFlag s)).2 with
    | error e => simp [hx, bind, Except.bind] at h
    | ok x => exact ⟨x, rfl, by simpa [hx, bind, Except.bind] using h⟩

theorem getLast?_of_parseTerm {s : Text} {t : Term} (h : parseTerm s = .ok t) {c : Char}
    (hc : s.getLast? = some c) : isOperatorEnd c = false ∧ c ≠ '-' := by
  suffices hend : ¬(isOperatorEnd c = true ∨ c = '-') by simpa using hend
  intro hend
  -- such a character ends no flag, no wildcard and no operand
  have hother : c.isAlpha = false ∧ isSegmentChar c = false := by
    rcases hend with hop | rfl
    · simp only [isOperatorEnd, Bool.or_eq_true, decide_eq_true_eq] at hop
      rcases hop with (((rfl | rfl) | rfl) | rfl) | rfl <;> decide
    · decide
  have hflag := dropFlag_of_getLast? hc hother.1
  rcases parseTerm_cases h with ⟨hlone, -⟩ | ⟨x, hx, -⟩
  · rw [hflag] at hlone
    simp only [List.mem_cons, List.not_mem_nil, or_false] at hlone
    rcases hlone with rfl | rfl | rfl | rfl
    · cases hc
    all_goals
      cases hc
      revert hother
      decide
  · rw [hflag] at hx
    obtain ⟨spelling, hread, -⟩ := Operand.parse_eq_ok_iff.mp hx
    obtain ⟨sign, hsign⟩ := Operator.split_suffix s
    have hlast := Spelling.getLast?_of_read? hread
    have hne : (Operator.split s).2 ≠ [] := by
      intro hnil
      rw [hnil] at hlast
      cases hlast
    rw [← hsign, List.getLast?_append, List.getLast?_eq_some_getLast hne, Option.some_or] at hc
    rw [List.getLast?_eq_some_getLast hne, hc, Option.any_some, hother.2] at hlast
    cases hlast

/-! ## Operators and the blanks behind them -/

/-- Whether blanks behind a text are dropped is settled by the last character that is kept. -/
theorem joinOperators_append (after : Bool) (s t : Text) :
    joinOperators after (s ++ t) = joinOperators after s ++
      joinOperators ((joinOperators after s).getLast?.elim after isOperatorEnd) t := by
  induction s generalizing after with
  | nil => rfl
  | cons c s ih =>
    rw [List.cons_append, joinOperators, joinOperators]
    split
    · rename_i hdrop
      rw [ih, (Bool.and_eq_true_iff.mp hdrop).1]
    · rw [ih, List.cons_append, List.getLast?_cons]
      cases (joinOperators (isOperatorEnd c) s).getLast? <;> rfl

theorem mem_of_mem_joinOperators {after : Bool} {s : Text} {c : Char}
    (h : c ∈ joinOperators after s) : c ∈ s := by
  induction s generalizing after with
  | nil => exact h
  | cons d s ih =>
    rw [joinOperators] at h
    split at h
    · exact List.mem_cons_of_mem d (ih h)
    · exact (List.mem_cons.mp h).elim (fun hc => hc ▸ List.mem_cons_self) fun h =>
        List.mem_cons_of_mem d (ih h)

theorem joinOperators_cons {c : Char} (hc : isTermSep c = true) {after : Bool}
    (hafter : isBlank c = true → after = false) (s : Text) :
    joinOperators after (c :: s) = c :: joinOperators false s := by
  have hend : isOperatorEnd c = false := by
    rw [← Bool.not_eq_true]
    intro hend
    rw [isTermSep_of_isOperatorEnd hend] at hc
    cases hc
  have hkept : (after && isBlank c) = false := by
    cases hblank : isBlank c with
    | false => rw [Bool.and_false]
    | true => rw [hafter hblank, Bool.false_and]
  rw [joinOperators, hkept, hend]
  rfl

/-- A separator keeps the terms on both sides apart, unless it is a blank behind an operator. -/
theorem termTexts_append {s : Text} {c : Char} (hc : isTermSep c = true)
    (hs : isBlank c = true → (joinOperators false s).getLast?.all (! isOperatorEnd ·) = true)
    (r : Text) : termTexts (s ++ c :: r) = termTexts s ++ termTexts r := by
  have hafter : isBlank c = true →
      (joinOperators false s).getLast?.elim false isOperatorEnd = false := by
    intro hblank
    have hend := hs hblank
    cases hlast : (joinOperators false s).getLast? with
    | none => rfl
    | some d => simpa [hlast] using hend
  rw [termTexts, joinOperators_append, joinOperators_cons hc hafter, Text.fields_append_cons hc]
  rfl

theorem termTexts_of_blank_append {front : Text} (hfront : ∀ c ∈ front, isBlank c = true)
    (s : Text) : termTexts (front ++ s) = termTexts s := by
  induction front with
  | nil => rfl
  | cons c front ih =>
    obtain ⟨hc, hfront⟩ := List.forall_mem_cons.mp hfront
    have hsep : isTermSep c = true := by simp [isTermSep, hc]
    rw [← ih hfront, List.cons_append, termTexts, joinOperators_cons hsep fun _ => rfl,
      Text.fields_cons_of_sep hsep, termTexts]

theorem termTexts_append_blank (s : Text) {back : Text} (hback : ∀ c ∈ back, isBlank c = true) :
    termTexts (s ++ back) = termTexts s := by
  rw [termTexts, joinOperators_append]
  refine Text.fields_append_all_sep _ fun c hc => ?_
  simp [isTermSep, hback c (mem_of_mem_joinOperators hc)]

theorem termTexts_trim (s : Text) : termTexts (Text.trim s) = termTexts s := by
  obtain ⟨front, back, hs, hfront, hback⟩ := Text.exists_trim s
  have hterms : termTexts (front ++ Text.trim s ++ back) = termTexts (Text.trim s) := by
    rw [termTexts_append_blank _ hback, termTexts_of_blank_append hfront]
  rw [← hterms, ← hs]

/-! ## Alternatives that are read -/

theorem getLast?_joinOperators {s : Text} {group : List Term}
    (h : (termTexts s).mapM parseTerm = .ok group) :
    (joinOperators false s).getLast?.all (! isOperatorEnd ·) = true := by
  cases hlast : (joinOperators false s).getLast? with
  | none => rfl
  | some c =>
    rw [Option.all_some, Bool.not_eq_true', ← Bool.not_eq_true]
    intro hend
    obtain ⟨front, hjoin⟩ := List.getLast?_eq_some_iff.mp hlast
    obtain ⟨field, hfield⟩ :=
      Text.exists_mem_fields_concat (isTermSep_of_isOperatorEnd hend) front
    rw [← hjoin] at hfield
    obtain ⟨t, -, ht⟩ := (exists_of_mapM_eq_ok h).1 _ hfield
    have hend' := (getLast?_of_parseTerm ht (List.getLast?_concat)).1
    rw [hend] at hend'
    cases hend'

theorem exists_termText_of_hyphen {s : Text} (h : ['-'] ∈ Text.words s) :
    ∃ front, front ++ ['-'] ∈ termTexts s := by
  obtain ⟨front, r, rfl, hr⟩ := Text.exists_of_mem_fields h
  have hsep : isTermSep '-' = false := by decide
  obtain ⟨field, hfield⟩ := Text.exists_mem_fields_concat hsep (joinOperators false front)
  have hhyphen (after : Bool) (t : Text) :
      joinOperators after ('-' :: t) = '-' :: joinOperators false t := by
    cases after <;> rfl
  refine ⟨field, ?_⟩
  rw [List.append_assoc, List.singleton_append, termTexts, joinOperators_append, hhyphen]
  cases r with
  | nil => exact hfield
  | cons c r =>
    have hc : isTermSep c = true := by
      have hblank : isBlank c = true := by simpa using hr
      simp [isTermSep, hblank]
    rw [joinOperators_cons hc fun _ => rfl, ← List.singleton_append, ← List.append_assoc,
      Text.fields_append_cons hc]
    exact List.mem_append_left _ hfield

theorem not_isHyphenated_of_terms {s : Text} {group : List Term}
    (h : (termTexts s).mapM parseTerm = .ok group) : ¬IsHyphenated s := by
  rintro ⟨low, high, hwords⟩
  obtain ⟨front, hfront⟩ := exists_termText_of_hyphen (s := s) (by simp [hwords])
  obtain ⟨t, -, ht⟩ := (exists_of_mapM_eq_ok h).1 _ hfront
  exact (getLast?_of_parseTerm ht (List.getLast?_concat)).2 rfl

theorem parseGroup_eq_ok_iff {s : Text} (hs : ¬IsHyphenated s) {group : List Term} :
    parseGroup s = .ok group ↔
      termTexts s ≠ [] ∧ (termTexts s).mapM parseTerm = .ok group := by
  unfold parseGroup
  split
  · rename_i low high hwords
    exact absurd ⟨low, high, hwords⟩ hs
  · have hterms : Text.fields (fun c => c = ',' || isBlank c) (joinOperators false s) =
        termTexts s := rfl
    rw [hterms]
    cases termTexts s with
    | nil => simp
    | cons t ts => simp

/-- An alternative that is no hyphen range is read term by term. -/
theorem parseAlternative_eq_ok_iff {s : Text} (hs : ¬IsHyphenated s) {group : List Term} :
    parseAlternative s = .ok group ↔
      termTexts s ≠ [] ∧ (termTexts s).mapM parseTerm = .ok group := by
  have htrim : ¬IsHyphenated (Text.trim s) := by
    rwa [IsHyphenated, Text.words_trim]
  unfold parseAlternative
  split
  · rename_i hnone
    have hterms : termTexts s = [] := by rw [← termTexts_trim, hnone]; rfl
    simp [hterms]
  · rw [parseGroup_eq_ok_iff htrim, termTexts_trim]

theorem exists_of_isHyphenated {s : Text} (hs : IsHyphenated s) {group : List Term}
    (h : parseAlternative s = .ok group) :
    ∃ low high t, parseHyphen low high = .ok t ∧ group = [t] := by
  obtain ⟨low, high, hwords⟩ := hs
  rw [← Text.words_trim] at hwords
  have hgroup : parseGroup (Text.trim s) = .ok group := by
    unfold parseAlternative at h
    split at h
    · cases h
    · exact h
  rw [parseGroup, hwords] at hgroup
  obtain ⟨t, ht, rfl⟩ := exists_of_map_eq_ok hgroup
  exact ⟨low, high, t, ht, rfl⟩

theorem exists_of_parseHyphen {low high : Text} {t : Term} (h : parseHyphen low high = .ok t) :
    ∃ x upper, Operand.parse low = .ok x ∧ t = .range (.inclusive x.floor) upper := by
  obtain ⟨x, hx, h⟩ := bind_eq_ok.mp h
  obtain ⟨y, -, h⟩ := bind_eq_ok.mp h
  simp only at h
  split at h
  · obtain ⟨upper, -, h⟩ := bind_eq_ok.mp h
    cases h
    exact ⟨x, upper, hx, rfl⟩
  · cases h
    exact ⟨x, _, hx, rfl⟩

/-- Two alternatives that are no hyphen ranges, with a separator between them, are read as one that
has the terms of both. -/
theorem parseAlternative_append {s r : Text} {group group' : List Term} {c : Char}
    (hc : isTermSep c = true) (hs : ¬IsHyphenated s) (hr : ¬IsHyphenated r)
    (h : parseAlternative s = .ok group) (h' : parseAlternative r = .ok group') :
    parseAlternative (s ++ c :: r) = .ok (group ++ group') := by
  obtain ⟨hne, hterms⟩ := (parseAlternative_eq_ok_iff hs).mp h
  obtain ⟨-, hterms'⟩ := (parseAlternative_eq_ok_iff hr).mp h'
  have hsplit : termTexts (s ++ c :: r) = termTexts s ++ termTexts r :=
    termTexts_append hc (fun _ => getLast?_joinOperators hterms) r
  have hread : (termTexts (s ++ c :: r)).mapM parseTerm = .ok (group ++ group') := by
    rw [hsplit]
    exact mapM_append_eq_ok_iff.mpr ⟨group, group', hterms, hterms', rfl⟩
  refine (parseAlternative_eq_ok_iff (not_isHyphenated_of_terms hread)).mpr ⟨?_, hread⟩
  simp [hsplit, hne]

end Constraint

end ExtensionAudit
