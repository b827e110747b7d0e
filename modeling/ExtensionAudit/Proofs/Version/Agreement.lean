import ExtensionAudit.Proofs.Results
import ExtensionAudit.Proofs.Version.RangeText
/-
  The reader of versions and the reader of operands. They part only at a star or an
  `x`, and no version has one of these, so what is a version is the same operand, and
  as a constraint it admits that version alone. What keeps a text of the right shape
  from being a version is one of its runs of digits.

  Main statements: `Version.exists_operand`, `Spelling.exists_runs` and
  `Version.readers_agree`.
-/

namespace ExtensionAudit

namespace Spelling

/-! ## Wildcards -/

/-- Whether a character may stand for any segment. -/
def isWildcard (c : Char) : Bool := c = '*' || c = 'x' || c = 'X'

theorem areWritten_true_of_false {segments : List Segment} {t : Text}
    (h : Segment.AreWritten false segments t) : Segment.AreWritten true segments t := by
  induction h with
  | nil => exact .nil
  | cons hsegment _ ih =>
    cases hsegment with
    | digits hne hrun => exact .cons (.digits hne hrun) ih
    | wildcard hallowed => cases hallowed

theorem areWritten_of_not_wildcard {segments : List Segment} {t : Text}
    (h : Segment.AreWritten true segments t) (ht : ∀ c ∈ t, isWildcard c = false) :
    Segment.AreWritten false segments t := by
  induction h with
  | nil => exact .nil
  | @cons segment segments s t hsegment _ ih =>
    obtain ⟨hs, ht⟩ := List.forall_mem_append.mp fun c hc => ht c (List.mem_cons_of_mem '.' hc)
    cases hsegment with
    | digits hne hrun => exact .cons (.digits hne hrun) (ih ht)
    | @wildcard c _ hc =>
      have hnot : isWildcard c = false := hs c List.mem_cons_self
      rcases hc with rfl | rfl | rfl <;> cases hnot

theorem read?_true_of_false {s : Text} {x : Spelling} (h : read? false s = some x) :
    read? true s = some x := by
  obtain ⟨mark, run, segments, more, back, hs, hmark, hsegments, hne, hrun, hlength, hmore,
    hback⟩ := read?_eq_some_iff.mp h
  exact read?_eq_some_iff.mpr ⟨mark, run, segments, more, back, hs, hmark, hsegments, hne, hrun,
    hlength, areWritten_true_of_false hmore, hback⟩

/-- What is read of a text without wildcards is read also where none are allowed. -/
theorem read?_false_of_true {s : Text} {x : Spelling} (hs : ∀ c ∈ s, isWildcard c = false)
    (h : read? true s = some x) : read? false s = some x := by
  obtain ⟨mark, run, segments, more, back, rfl, hmark, hsegments, hne, hrun, hlength, hmore,
    hback⟩ := read?_eq_some_iff.mp h
  have hnone : ∀ c ∈ more, isWildcard c = false := fun c hc => hs c (by simp [hc])
  exact read?_eq_some_iff.mpr ⟨mark, run, segments, more, back, rfl, hmark, hsegments, hne, hrun,
    hlength, areWritten_of_not_wildcard hmore hnone, hback⟩

/-! ## Runs of digits -/

/-- The runs of digits in a text. -/
def digitRuns (s : Text) : List Text := Text.fields (! isDecimal ·) s

theorem digitRuns_cons {c : Char} (hc : isDecimal c = false) (s : Text) :
    digitRuns (c :: s) = digitRuns s :=
  Text.fields_cons_of_sep (by simp [hc])

theorem digitRuns_of_not_digits {front : Text} (hfront : ∀ c ∈ front, isDecimal c = false)
    (s : Text) : digitRuns (front ++ s) = digitRuns s :=
  Text.fields_append_of_all_sep fun c hc => by simp [hfront c hc]

theorem digitRuns_run {run r : Text} (hne : run ≠ []) (hrun : ∀ c ∈ run, isDecimal c = true)
    (hr : r.head?.all (! isDecimal ·) = true) : digitRuns (run ++ r) = run :: digitRuns r := by
  have hrun : ∀ c ∈ run, (! isDecimal c) = false := fun c hc => by simp [hrun c hc]
  cases r with
  | nil =>
    rw [List.append_nil, digitRuns, Text.fields_of_not_sep hrun hne]
    rfl
  | cons c r =>
    rw [digitRuns, Text.fields_append_of_sep hrun hne hr, digitRuns, Text.fields_cons_of_sep hr]

theorem exists_runs_of_areWritten {segments : List Segment} {t r : Text}
    (h : Segment.AreWritten false segments t) (hr : EndsSegments false r) :
    ∃ runs : List Text, segments = runs.map .digits ∧
      digitRuns (t ++ r) = runs ++ digitRuns r := by
  induction h with
  | nil => exact ⟨[], rfl, rfl⟩
  | cons hsegment hbehind ih =>
    obtain ⟨runs, rfl, hruns⟩ := ih
    cases hsegment with
    | digits hne hrun =>
      refine ⟨_ :: runs, rfl, ?_⟩
      rw [List.cons_append, List.append_assoc, digitRuns_cons (by decide),
        digitRuns_run hne hrun (head?_of_areWritten hbehind hr), hruns, List.cons_append]
    | wildcard hallowed => cases hallowed

theorem digitRuns_of_isWritten {suffix : Suffix} {s : Text} (h : suffix.IsWritten s) :
    digitRuns s = suffix.digits.toList := by
  obtain ⟨sep, body, rfl, hsep, hbody⟩ := h
  obtain ⟨c, word, tail, rfl, hletters, -, -, htail⟩ := hbody.letters
  obtain ⟨dot, rfl, hdot, hdigits⟩ := suffixDigits?_eq_some_iff.mp htail
  have hsep : ∀ a ∈ sep, isDecimal a = false :=
    forall_mem_of_optional hsep (by decide) (by decide)
  have hdot : ∀ a ∈ dot, isDecimal a = false :=
    forall_mem_of_optional (hdot.imp_right .inl) (b := '.') (by decide) (by decide)
  rw [digitRuns_of_not_digits hsep,
    digitRuns_of_not_digits fun a ha => isDecimal_of_isAlpha (hletters a ha),
    digitRuns_of_not_digits hdot]
  cases hrun : suffix.digits with
  | none => rfl
  | some run =>
    obtain ⟨hne, hrun⟩ := hdigits run hrun
    have hruns := digitRuns_run hne hrun (r := []) rfl
    rwa [List.append_nil] at hruns

theorem digitRuns_of_isTail {suffix : Option Suffix} {s : Text} (h : Suffix.IsTail suffix s) :
    digitRuns s = (suffix.bind Suffix.digits).toList := by
  cases h with
  | nothing => rfl
  | suffix hsuffix => exact digitRuns_of_isWritten hsuffix

/-- The runs of digits in a version are those of its segments and that of its suffix. -/
theorem exists_runs {s : Text} {x : Spelling} (h : read? false s = some x) :
    ∃ runs : List Text, x.segments = runs.map .digits ∧
      digitRuns s = runs ++ (x.suffix.bind Suffix.digits).toList := by
  obtain ⟨mark, run, segments, more, back, rfl, hmark, hsegments, hne, hrun, -, hmore, hback⟩ :=
    read?_eq_some_iff.mp h
  have hends : EndsSegments false back := endsSegments_of_isTail hback
  have hmark : ∀ c ∈ mark, isDecimal c = false :=
    forall_mem_of_optional hmark (by decide) (by decide)
  obtain ⟨runs, rfl, hruns⟩ := exists_runs_of_areWritten hmore hends
  refine ⟨run :: runs, hsegments, ?_⟩
  rw [digitRuns_of_not_digits hmark, digitRuns_run hne hrun (head?_of_areWritten hmore hends),
    hruns, digitRuns_of_isTail hback, List.cons_append]

end Spelling

/-! ## Values -/

/-- Whether a run of digits is an ASCII number that fits a segment. -/
def IsSegmentNumber (run : Text) : Prop :=
  run.all Char.isDigit = true ∧ decimalValue run < segmentLimit

instance (run : Text) : Decidable (IsSegmentNumber run) := inferInstanceAs (Decidable (_ ∧ _))

theorem exists_segment?_iff {run : Text} (hne : run ≠ []) :
    (∃ n, segment? run = some n) ↔ IsSegmentNumber run := by
  have hempty : run.isEmpty = false := by simpa using hne
  unfold IsSegmentNumber
  cases hdigits : run.all Char.isDigit with
  | false => simp [segment?, hdigits]
  | true =>
    by_cases hlimit : decimalValue run < segmentLimit <;> simp [segment?, hempty, hdigits, hlimit]

theorem Version.exists_segmentValues_iff {runs : List Text} :
    (∃ values, segmentValues (runs.map .digits) = some values) ↔
      ∀ run ∈ runs, ∃ n, segment? run = some n := by
  induction runs with
  | nil => simp [segmentValues]
  | cons run runs ih =>
    rw [List.forall_mem_cons, ← ih]
    cases hrun : segment? run with
    | none => simp [segmentValues, hrun]
    | some n => cases hrest : segmentValues (runs.map .digits) <;> simp [segmentValues, hrun, hrest]

theorem Spelling.exists_stability?_iff {x : Spelling} :
    (∃ written, x.stability? = some written) ↔
      ∀ run ∈ (x.suffix.bind Suffix.digits).toList, ∃ n, ExtensionAudit.segment? run = some n := by
  obtain ⟨segments, suffix⟩ := x
  match suffix with
  | none | some ⟨stability, none⟩ => simp [stability?, Suffix.value?]
  | some ⟨stability, some run⟩ =>
    cases hrun : ExtensionAudit.segment? run <;> simp [stability?, Suffix.value?, hrun]

theorem Operand.toOption_partsOf_digits (runs : List Text) :
    (partsOf (runs.map .digits)).toOption =
      (Version.segmentValues (runs.map .digits)).map fun values => (values, false) := by
  induction runs with
  | nil => rfl
  | cons run runs ih =>
    cases hrun : segment? run with
    | none => simp [partsOf, Version.segmentValues, hrun, Except.toOption]
    | some n =>
      have hmap : (partsOf ((run :: runs).map .digits)).toOption =
          (partsOf (runs.map .digits)).toOption.map fun p => (n :: p.1, p.2) := by
        cases hrest : partsOf (runs.map .digits) <;>
          simp [partsOf, hrun, hrest, Except.map, Except.toOption]
      rw [hmap, ih]
      cases hvalues : Version.segmentValues (runs.map .digits) <;>
        simp [Version.segmentValues, hrun, hvalues]

theorem Operand.partsOf_digits_iff {runs : List Text} {parts : List Nat} {wildcard : Bool} :
    partsOf (runs.map .digits) = .ok (parts, wildcard) ↔
      Version.segmentValues (runs.map .digits) = some parts ∧ wildcard = false := by
  have hoption : partsOf (runs.map .digits) = .ok (parts, wildcard) ↔
      (partsOf (runs.map .digits)).toOption = some (parts, wildcard) := by
    cases partsOf (runs.map .digits) <;> simp [Except.toOption]
  rw [hoption, toOption_partsOf_digits, Option.map_eq_some_iff]
  constructor
  · rintro ⟨values, hvalues, ⟨⟩⟩
    exact ⟨hvalues, rfl⟩
  · rintro ⟨hvalues, rfl⟩
    exact ⟨parts, hvalues, rfl⟩

namespace Version

/-- A version is read as an operand without a wildcard, with the version as its exact value. -/
theorem exists_operand {s : String} {v : Version} (h : parse s = .ok v) :
    ∃ x, Operand.parse (Text.trim s.toList) = .ok x ∧ x.wildcard = false ∧ x.exact.Same v := by
  obtain ⟨spelling, values, written, hread, hvalues, hwritten, rfl⟩ := parse_eq_ok_iff.mp h
  obtain ⟨runs, hruns, -⟩ := Spelling.exists_runs hread
  have hparts : Operand.partsOf spelling.segments = .ok (values, false) := by
    rw [hruns] at hvalues ⊢
    exact Operand.partsOf_digits_iff.mpr ⟨hvalues, rfl⟩
  exact ⟨⟨values, false, written⟩, Operand.parse_eq_ok_iff.mpr
    ⟨spelling, Spelling.read?_true_of_false hread, hparts, hwritten⟩, rfl, rfl⟩

theorem lt_limit_of_parse {s : String} {v : Version} (h : parse s = .ok v) :
    ∀ n ∈ v.segments, n < segmentLimit := by
  obtain ⟨x, hx, -, hsame⟩ := exists_operand h
  have hformed := Operand.formed_of_parse hx
  rw [← segments_eq_of_same hsame, Operand.segments_exact hformed]
  intro n hn
  rcases List.mem_append.mp hn with hpart | hzero
  · exact hformed.lt_limit n hpart
  · obtain ⟨-, rfl⟩ := List.mem_replicate.mp hzero
    decide

theorem exists_of_operand {s : String} {x : Operand} (htrim : Text.trim s.toList = s.toList)
    (hs : ∀ c ∈ s.toList, Spelling.isWildcard c = false) (h : Operand.parse s.toList = .ok x) :
    ∃ v, parse s = .ok v ∧ x.exact.Same v := by
  obtain ⟨spelling, hread, hparts, hwritten⟩ := Operand.parse_eq_ok_iff.mp h
  have hread := Spelling.read?_false_of_true hs hread
  obtain ⟨runs, hruns, -⟩ := Spelling.exists_runs hread
  rw [hruns, Operand.partsOf_digits_iff, ← hruns] at hparts
  exact ⟨_, parse_eq_ok_iff.mpr
    ⟨spelling, _, _, htrim.symm ▸ hread, hparts.1, hwritten, rfl⟩, rfl⟩

theorem parse_constraint {s : String} {v : Version} (h : parse s = .ok v) :
    ∃ c, Constraint.parse s = .ok c ∧ ∀ w, c.admits w = true ↔ w.Same v := by
  obtain ⟨x, hx, hwildcard, hsame⟩ := exists_operand h
  obtain ⟨front, back, hs, hfront, hback⟩ := Text.exists_trim s.toList
  have hblank : ∀ c ∈ front ++ back, isBlank c = true := fun c hc =>
    (List.mem_append.mp hc).elim (hfront c) (hback c)
  have hapart := Operand.apart_of_parse hx
  obtain ⟨hsplit, hlone⟩ := Operand.split_of_parse hx
  have hterm : Constraint.parseTerm (Text.trim s.toList) =
      .ok (.range (.inclusive x.exact) (.inclusive x.exact)) := by
    rw [Constraint.parseTerm_of_split (fun c hc => (hapart c hc).2.2.2)
      ⟨Operand.ne_nil_of_parse hx, hlone⟩ hsplit hx]
    simp [Operator.term, hwildcard]
  -- blanks around the text do not count, and no other character of it separates terms
  have hparse := Constraint.parse_word hs hblank
    (fun c hc => ⟨(hapart c hc).1, (hapart c hc).2.1, (hapart c hc).2.2.1⟩)
    (Operand.ne_nil_of_parse hx)
  rw [hterm] at hparse
  refine ⟨_, hparse, fun w => ?_⟩
  have hkey : x.exact.key = v.key := hsame
  rw [Constraint.admits_single, Same, ← hkey]
  simp only [Term.admits, Term.above, Term.below, Bool.and_eq_true, decide_eq_true_eq]
  rw [and_comm]
  exact same_iff_le.symm

theorem digitRuns_trim (s : Text) : Spelling.digitRuns (Text.trim s) = Spelling.digitRuns s := by
  obtain ⟨front, back, hs, hfront, hback⟩ := Text.exists_trim s
  have hnone {c : Char} (hc : isBlank c = true) : isDecimal c = false := by
    rw [← Bool.not_eq_true]
    intro hdecimal
    rw [isBlank_of_isDecimal hdecimal] at hc
    cases hc
  have hruns : Spelling.digitRuns (front ++ Text.trim s ++ back) =
      Spelling.digitRuns (Text.trim s) := by
    rw [List.append_assoc, Spelling.digitRuns_of_not_digits fun c hc => hnone (hfront c hc)]
    exact Text.fields_append_all_sep _ fun c hc => by simp [hnone (hback c hc)]
  rw [← hruns, ← hs]

/-- A text of the right shape is a version if each of its runs of digits is a number that fits a
segment. -/
theorem exists_parse_iff_of_isRelease {s : String} (h : isRelease s = true) :
    (∃ v, parse s = .ok v) ↔ ∀ run ∈ Spelling.digitRuns s.toList, IsSegmentNumber run := by
  obtain ⟨x, hread⟩ := Option.isSome_iff_exists.mp h
  obtain ⟨runs, hsegments, hruns⟩ := Spelling.exists_runs hread
  have hvalues : (∃ v, parse s = .ok v) ↔
      (∃ values, segmentValues (runs.map .digits) = some values) ∧
        ∃ written, x.stability? = some written := by
    simp only [parse_eq_ok_iff, hread, Option.some.injEq, ← hsegments]
    constructor
    · rintro ⟨_, _, values, written, rfl, hvalues, hwritten, -⟩
      exact ⟨⟨values, hvalues⟩, written, hwritten⟩
    · rintro ⟨⟨values, hvalues⟩, written, hwritten⟩
      exact ⟨_, x, values, written, rfl, hvalues, hwritten, rfl⟩
  -- fields between separators are not empty
  have hne : ∀ run ∈ Spelling.digitRuns s.toList, run ≠ [] := by
    intro run hrun hnil
    simpa [hnil] using (List.mem_filter.mp hrun).2
  rw [digitRuns_trim] at hruns
  rw [hvalues, exists_segmentValues_iff, Spelling.exists_stability?_iff, ← List.forall_mem_append,
    ← hruns]
  exact forall₂_congr fun run hrun => exists_segment?_iff (hne run hrun)

/-- The reader of versions and the reader of operands agree. What is a version has the shape of one
and is, as a constraint, admitted alone with what is the same version; a text without blanks around
it and without wildcards is an operand if it is a version, with that version as its exact value; and
a text of the right shape is a version unless one of its runs of digits is no ASCII number below
the limit of segments. -/
theorem readers_agree (s : String) :
    (∀ v, parse s = .ok v → isRelease s = true ∧
      ∃ c, Constraint.parse s = .ok c ∧ ∀ w, c.admits w = true ↔ w.Same v) ∧
    (Text.trim s.toList = s.toList → (∀ c ∈ s.toList, c ≠ '*' ∧ c ≠ 'x' ∧ c ≠ 'X') →
      ((∃ x, Operand.parse s.toList = .ok x) ↔ ∃ v, parse s = .ok v) ∧
      ∀ x v, Operand.parse s.toList = .ok x → parse s = .ok v → x.exact.Same v) ∧
    (isRelease s = true →
      ((∃ v, parse s = .ok v) ↔ ∀ run ∈ Spelling.digitRuns s.toList, IsSegmentNumber run)) := by
  refine ⟨fun v hv => ⟨?_, parse_constraint hv⟩, fun htrim hs => ?_, exists_parse_iff_of_isRelease⟩
  · obtain ⟨x, -, -, hread, -⟩ := parse_eq_ok_iff.mp hv
    exact Option.isSome_iff_exists.mpr ⟨x, hread⟩
  · have hs : ∀ c ∈ s.toList, Spelling.isWildcard c = false := fun c hc => by
      simp [Spelling.isWildcard, hs c hc]
    constructor
    · constructor
      · rintro ⟨x, hx⟩
        obtain ⟨v, hv, -⟩ := exists_of_operand htrim hs hx
        exact ⟨v, hv⟩
      · rintro ⟨v, hv⟩
        obtain ⟨x, hx, -⟩ := exists_operand hv
        exact ⟨x, htrim ▸ hx⟩
    · intro x v hx hv
      obtain ⟨v', hv', hsame⟩ := exists_of_operand htrim hs hx
      obtain rfl := Except.ok.inj (hv.symm.trans hv')
      exact hsame

/-- A version with its mark, a pre-release and blanks around it, an operand, and a text with a
segment that is too great. -/
theorem readers_agree_spelled :
    (∃ v c, parse " V06.5-Beta.2 " = .ok v ∧ Constraint.parse " V06.5-Beta.2 " = .ok c ∧
      c.admits v = true ∧ c.admits (.release 6 5 0 0) = false) ∧
    (∃ v, parse "6.5.0.rc" = .ok v) ∧
    ¬∃ v, parse "6.18446744073709551616" = .ok v := by
  refine ⟨?_, ?_, ?_⟩
  · obtain ⟨v, hv, hother⟩ := exists_ok_of_any (x := parse " V06.5-Beta.2 ")
      (p := fun v => ! decide ((release 6 5 0 0).Same v)) (by decide +kernel)
    obtain ⟨-, c, hc, hadmits⟩ := (readers_agree " V06.5-Beta.2 ").1 v hv
    refine ⟨v, c, hv, hc, (hadmits v).mpr rfl, ?_⟩
    rw [← Bool.not_eq_true, hadmits]
    simpa using hother
  · have hoperand :
        Operand.parse "6.5.0.rc".toList = .ok ⟨[6, 5, 0], false, some (.rc, 0)⟩ := by rfl
    have hplain : "6.5.0.rc".toList.all (fun c => c ≠ '*' ∧ c ≠ 'x' ∧ c ≠ 'X') = true := by decide
    have hsame := (readers_agree "6.5.0.rc").2.1 (by decide +kernel) fun c hc =>
      of_decide_eq_true (List.all_eq_true.mp hplain c hc)
    exact hsame.1.mp ⟨_, hoperand⟩
  · rw [(readers_agree "6.18446744073709551616").2.2 (by decide +kernel)]
    decide +kernel

end Version

end ExtensionAudit
