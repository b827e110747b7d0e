import ExtensionAudit.Platform.Kernel
import ExtensionAudit.Proofs.Text.Fields
/-
  The version constant of the kernel, as a form of text. An assignment is the
  name, an equals sign and a quoted version, with blanks around the sign; what a
  source declares is what its first assignment says, where both numbers fit.

  Main statements: `digits?_eq_some_iff` (the scan stops at the first assignment)
  and `version?_eq_some_iff`.
-/

namespace ExtensionAudit.Kernel

/-- The two characters that may quote the version. -/
def IsQuote (c : Char) : Prop := c = '\'' ∨ c = '"'

/-- A text that goes on, behind the name of the constant, with an assignment of a version of
these major and minor digits. -/
inductive Assigns : Text → Text → Text → Prop where
  | intro {gap gap' mark major minor tail rest : Text} {opening closing : Char}
      (blank : ∀ c ∈ gap, isBlank c = true) (blank' : ∀ c ∈ gap', isBlank c = true)
      (opens : IsQuote opening) (marked : mark = [] ∨ mark = ['v'])
      (major_ne : major ≠ []) (major_digits : ∀ c ∈ major, isDecimal c = true)
      (minor_ne : minor ≠ []) (minor_digits : ∀ c ∈ minor, isDecimal c = true)
      (more : tail = [] ∨ ∃ t, tail = '.' :: t ∧ ∀ c ∈ t, isTailChar c = true)
      (closes : IsQuote closing) :
      Assigns (gap ++ '=' :: (gap' ++ opening :: (mark ++ (major ++
        '.' :: (minor ++ (tail ++ closing :: rest)))))) major minor

/-- A text that begins with an assignment to the constant. -/
def BeginsAssignment (s major minor : Text) : Prop :=
  ∃ behind, s = constant ++ behind ∧ Assigns behind major minor

/-- The digits that the first assignment in a text gives to the constant. -/
def FirstAssigned (s major minor : Text) : Prop :=
  ∃ before here, s = before ++ here ∧ BeginsAssignment here major minor ∧
    ∀ before' here', s = before' ++ here' → before'.length < before.length →
      ∀ major' minor', ¬BeginsAssignment here' major' minor'

/-- A source whose first assignment gives the constant a version of these numbers; digits of no
number below 2^64 declare nothing. -/
def Declares (source : String) (major minor : Nat) : Prop :=
  ∃ majorDigits minorDigits, FirstAssigned source.toList majorDigits minorDigits ∧
    segment? majorDigits = some major ∧ segment? minorDigits = some minor

/-! ## One assignment -/

variable {s major minor : Text}

theorem IsQuote.not_special {c : Char} (h : IsQuote c) :
    isBlank c = false ∧ isDecimal c = false ∧ isTailChar c = false ∧ c ≠ '.' := by
  rcases h with rfl | rfl <;> decide

theorem beginsWithQuote_iff : beginsWithQuote s = true ↔ ∃ c r, s = c :: r ∧ IsQuote c := by
  cases s with
  | nil => exact ⟨nofun, nofun⟩
  | cons c r => simp [beginsWithQuote, IsQuote]

theorem of_mem_takeWhile (p : Char → Bool) (s : Text) : ∀ c ∈ s.takeWhile p, p c = true :=
  List.all_eq_true.mp List.all_takeWhile

theorem takeWhile_run {p : Char → Bool} {run rest : Text} {c : Char} (hrun : ∀ d ∈ run, p d = true)
    (hc : p c = false) :
    (run ++ c :: rest).takeWhile p = run ∧ (run ++ c :: rest).dropWhile p = c :: rest := by
  rw [List.takeWhile_append_of_pos hrun, List.dropWhile_append_of_pos hrun]
  simp [hc]

theorem dropMark_of_digit {mark : Text} (hmark : mark = [] ∨ mark = ['v'])
    (hs : s.head?.all isDecimal = true) : dropMark (mark ++ s) = s := by
  rcases hmark with rfl | rfl
  · cases s with
    | nil => rfl
    | cons c s =>
      have hc : c ≠ 'v' := by
        rintro rfl
        have hv : isDecimal 'v' = true := by simpa using hs
        exact absurd hv (by decide)
      simp [dropMark, hc]
  · rfl

theorem exists_of_dropMark (s : Text) :
    ∃ mark, (mark = [] ∨ mark = ['v']) ∧ s = mark ++ dropMark s := by
  by_cases h : ∃ r, s = 'v' :: r
  · obtain ⟨r, rfl⟩ := h
    exact ⟨['v'], .inr rfl, rfl⟩
  · refine ⟨[], .inl rfl, ?_⟩
    unfold dropMark
    split
    · exact absurd ⟨_, rfl⟩ h
    · rfl

theorem exists_of_dropTail (s : Text) :
    ∃ tail, (tail = [] ∨ ∃ t, tail = '.' :: t ∧ ∀ c ∈ t, isTailChar c = true) ∧
      s = tail ++ dropTail s := by
  by_cases h : ∃ r, s = '.' :: r
  · obtain ⟨r, rfl⟩ := h
    refine ⟨'.' :: r.takeWhile isTailChar, .inr ⟨_, rfl, of_mem_takeWhile _ _⟩, ?_⟩
    simp [dropTail, List.takeWhile_append_dropWhile]
  · refine ⟨[], .inl rfl, ?_⟩
    unfold dropTail
    split
    · exact absurd ⟨_, rfl⟩ h
    · rfl

theorem dropTail_of_quote {tail rest : Text} {closing : Char}
    (htail : tail = [] ∨ ∃ t, tail = '.' :: t ∧ ∀ c ∈ t, isTailChar c = true)
    (hclosing : IsQuote closing) : dropTail (tail ++ closing :: rest) = closing :: rest := by
  obtain ⟨-, -, hstop, hdot⟩ := hclosing.not_special
  rcases htail with rfl | ⟨t, rfl, ht⟩
  · simp [dropTail, hdot]
  · simp only [List.cons_append, dropTail]
    exact (takeWhile_run ht hstop).2

theorem assigned?_of_assigns (h : Assigns s major minor) : assigned? s = some (major, minor) := by
  cases h with
  | @intro gap gap' mark _ _ tail rest opening closing hgap hgap' hopen hmark hmajor hmajors hminor
      hminors htail hclose =>
    have hafter : dropMark (mark ++ (major ++ '.' :: (minor ++ (tail ++ closing :: rest)))) =
        major ++ '.' :: (minor ++ (tail ++ closing :: rest)) := by
      apply dropMark_of_digit hmark
      cases major with
      | nil => exact absurd rfl hmajor
      | cons c major => simpa using hmajors c (by simp)
    obtain ⟨htake, hdrop⟩ := @takeWhile_run isDecimal major
      (minor ++ (tail ++ closing :: rest)) '.' hmajors (by decide)
    -- no digit stands behind the minor number: a point does, or the quote
    have hminor' : (minor ++ (tail ++ closing :: rest)).takeWhile isDecimal = minor ∧
        (minor ++ (tail ++ closing :: rest)).dropWhile isDecimal = tail ++ closing :: rest := by
      rcases htail with rfl | ⟨t, rfl, -⟩
      · exact takeWhile_run hminors hclose.not_special.2.1
      · exact takeWhile_run hminors (by decide)
    have hquote : beginsWithQuote (dropTail (tail ++ closing :: rest)) = true := by
      rw [dropTail_of_quote htail hclose]
      exact beginsWithQuote_iff.mpr ⟨_, _, rfl, hclose⟩
    unfold assigned?
    rw [Text.trimStart_of_blank hgap (by simp [show isBlank '=' = false by decide])]
    simp only [Text.trimStart_of_blank hgap' (s := opening :: _) (by simp [hopen.not_special.1]),
      beginsWithQuote_iff.mpr ⟨_, _, rfl, hopen⟩, if_true, List.tail_cons, hafter, htake, hdrop,
      hminor'.1, hminor'.2, hquote, Bool.and_true]
    rw [if_pos (by simp [hmajor, hminor])]

theorem assigns_of_assigned? (h : assigned? s = some (major, minor)) : Assigns s major minor := by
  unfold assigned? at h
  split at h
  · rename_i s₁ hs₁
    simp only at h
    split at h
    · rename_i hopen
      obtain ⟨opening, s₂, hs₂, hopening⟩ := beginsWithQuote_iff.mp hopen
      rw [hs₂, List.tail_cons] at h
      split at h
      · rename_i s₃ hs₃
        split at h
        · rename_i hall
          obtain ⟨⟨hmajor, hminor⟩, hclose⟩ := by
            simpa only [Bool.and_eq_true, Bool.not_eq_true'] using hall
          obtain ⟨rfl, rfl⟩ := by simpa using h
          obtain ⟨mark, hmark, hmark'⟩ := exists_of_dropMark s₂
          obtain ⟨tail, htail, htail'⟩ := exists_of_dropTail (s₃.dropWhile isDecimal)
          obtain ⟨closing, rest, hrest, hclosing⟩ := beginsWithQuote_iff.mp hclose
          -- the pieces that were passed and taken, put together again
          have hform : s = s.takeWhile isBlank ++ '=' :: (s₁.takeWhile isBlank ++ opening ::
              (mark ++ ((dropMark s₂).takeWhile isDecimal ++ '.' ::
                (s₃.takeWhile isDecimal ++ (tail ++ closing :: rest))))) := by
            rw [← hrest, ← htail', List.takeWhile_append_dropWhile, ← hs₃,
              List.takeWhile_append_dropWhile, ← hmark', ← hs₂, Text.trimStart,
              List.takeWhile_append_dropWhile, ← hs₁, Text.trimStart,
              List.takeWhile_append_dropWhile]
          rw [hform]
          exact .intro (of_mem_takeWhile _ _) (of_mem_takeWhile _ _) hopening hmark
            (by simpa using hmajor) (of_mem_takeWhile _ _) (by simpa using hminor)
            (of_mem_takeWhile _ _) htail hclosing
        · cases h
      · cases h
    · cases h
  · cases h

theorem assigned?_eq_some_iff : assigned? s = some (major, minor) ↔ Assigns s major minor :=
  ⟨assigns_of_assigned?, assigned?_of_assigns⟩

/-! ## The first one -/

theorem strip?_append_self (front s : Text) : Text.strip? front (front ++ s) = some s := by
  induction front with
  | nil => rfl
  | cons c front ih => simpa [Text.strip?] using ih

theorem beginsAssignment_iff :
    (Text.strip? constant s).bind assigned? = some (major, minor) ↔
      BeginsAssignment s major minor := by
  rw [Option.bind_eq_some_iff]
  constructor
  · rintro ⟨behind, hstrip, hassigned⟩
    exact ⟨behind, (Text.strip?_append hstrip).symm, assigned?_eq_some_iff.mp hassigned⟩
  · rintro ⟨behind, rfl, hassigns⟩
    exact ⟨behind, strip?_append_self _ _, assigned?_eq_some_iff.mpr hassigns⟩

theorem not_beginsAssignment_nil : ¬BeginsAssignment [] major minor := by
  rintro ⟨behind, hnil, -⟩
  cases hnil

theorem not_beginsAssignment_iff :
    (Text.strip? constant s).bind assigned? = none ↔
      ∀ major minor, ¬BeginsAssignment s major minor := by
  simp only [← beginsAssignment_iff, Option.eq_none_iff_forall_ne_some, Prod.forall]

theorem FirstAssigned.here (h : BeginsAssignment s major minor) : FirstAssigned s major minor :=
  ⟨[], s, rfl, h, fun _ _ _ hlt => absurd hlt (Nat.not_lt_zero _)⟩

/-- Where no assignment begins, the first one is found behind the first character. -/
theorem firstAssigned_cons_iff {c : Char} (hc : ∀ M m, ¬BeginsAssignment (c :: s) M m) :
    FirstAssigned (c :: s) major minor ↔ FirstAssigned s major minor := by
  constructor
  · rintro ⟨before, here, heq, hbegins, hfirst⟩
    cases before with
    | nil =>
      obtain rfl : c :: s = here := heq
      exact absurd hbegins (hc _ _)
    | cons d before =>
      obtain ⟨rfl, rfl⟩ := List.cons.inj heq
      refine ⟨before, here, rfl, hbegins, fun before' here' heq' hlt => ?_⟩
      exact hfirst (c :: before') here' (by rw [heq']; rfl) (Nat.succ_lt_succ hlt)
  · rintro ⟨before, here, rfl, hbegins, hfirst⟩
    refine ⟨c :: before, here, rfl, hbegins, fun before' here' heq' hlt => ?_⟩
    cases before' with
    | nil =>
      obtain rfl : c :: (before ++ here) = here' := heq'
      exact hc
    | cons d before' =>
      obtain ⟨-, hrest⟩ := List.cons.inj heq'
      exact hfirst before' here' hrest (Nat.lt_of_succ_lt_succ hlt)

theorem digits?_eq_some_iff : digits? s = some (major, minor) ↔ FirstAssigned s major minor := by
  induction s with
  | nil =>
    refine ⟨nofun, ?_⟩
    rintro ⟨before, here, heq, hbegins, -⟩
    obtain ⟨rfl, rfl⟩ := List.append_eq_nil_iff.mp heq.symm
    exact absurd hbegins not_beginsAssignment_nil
  | cons c s ih =>
    unfold digits?
    cases hfound : (Text.strip? constant (c :: s)).bind assigned? with
    | some found =>
      obtain ⟨M, m⟩ := found
      have hbegins := beginsAssignment_iff.mp hfound
      constructor
      · rintro ⟨⟩
        exact .here hbegins
      · rintro ⟨before, here, heq, hbegins', hfirst⟩
        cases before with
        | nil =>
          obtain rfl : c :: s = here := heq
          exact hfound.symm.trans (beginsAssignment_iff.mpr hbegins')
        | cons d before => exact absurd hbegins (hfirst [] (c :: s) rfl (Nat.succ_pos _) M m)
    | none => exact ih.trans (firstAssigned_cons_iff (not_beginsAssignment_iff.mp hfound)).symm

/-- A source is read as it declares. -/
theorem version?_eq_some_iff {source : String} {major minor : Nat} :
    version? source = some (major, minor) ↔ Declares source major minor := by
  unfold version? Declares
  simp only [← digits?_eq_some_iff]
  cases digits? source.toList with
  | none => simp
  | some found =>
    obtain ⟨M, m⟩ := found
    simp only [Option.some.injEq, Prod.mk.injEq]
    constructor
    · intro h
      split at h
      · rename_i i j hi hj
        cases h
        exact ⟨M, m, ⟨rfl, rfl⟩, hi, hj⟩
      · cases h
    · rintro ⟨_, _, ⟨rfl, rfl⟩, hi, hj⟩
      rw [hi, hj]

theorem version?_eq_none_iff {source : String} :
    version? source = none ↔ ∀ major minor, ¬Declares source major minor := by
  simp only [← version?_eq_some_iff, Option.eq_none_iff_forall_ne_some, Prod.forall]

end ExtensionAudit.Kernel
