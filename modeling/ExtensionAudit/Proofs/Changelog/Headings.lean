import ExtensionAudit.Changelog
import ExtensionAudit.Proofs.Markup.Reading
import ExtensionAudit.Proofs.Version.OperandText
/-
  Version headings. A heading is one to six `#`, blanks, and a version that may stand
  in brackets and behind a `v`, with nothing or a blank behind it. Each part ends
  where the next one begins, so that a line is a heading of one version at most.

  Main statement: `headingVersion?_eq_some_iff`.
-/

namespace ExtensionAudit

namespace Changelog

open Text (endsRun takeWhile_run dropWhile_run endsRun_dropWhile)

/-- Whether a text is a nonempty run of such characters. -/
structure IsRun (p : Char → Bool) (s : Text) : Prop where
  ne_nil : s ≠ []
  all : ∀ c ∈ s, p c = true

/-- Runs, each behind a dot. -/
def dotted (runs : List Text) : Text := runs.flatMap ('.' :: ·)

/-- A suffix: nothing, or a hyphen and a run of ASCII letters, digits and dots. -/
def IsSuffix (s : Text) : Prop := s = [] ∨ ∃ run, s = '-' :: run ∧ IsRun isSuffixChar run

/-- The text of a version: one to four runs of decimal digits with dots between them, and a
suffix. -/
inductive IsVersionText : Text → Prop where
  | mk {run suffix : Text} {more : List Text} (hrun : IsRun isDecimal run)
      (hmore : ∀ r ∈ more, IsRun isDecimal r) (hlength : more.length ≤ 3)
      (hsuffix : IsSuffix suffix) : IsVersionText (run ++ (dotted more ++ suffix))

/-- A line that is the heading of a version. -/
inductive IsHeading (version : Text) : Text → Prop where
  | mk {n : Nat} {blanks bracket mark closing rest : Text} (hfew : 1 ≤ n) (hmany : n ≤ 6)
      (hblanks : IsRun isBlank blanks) (hbracket : bracket = [] ∨ bracket = ['['])
      (hmark : mark = [] ∨ mark = ['v']) (hversion : IsVersionText version)
      (hclosing : closing = [] ∨ closing = [']']) (hrest : rest.head?.all isBlank = true) :
      IsHeading version (List.replicate n '#' ++
        (blanks ++ (bracket ++ (mark ++ (version ++ (closing ++ rest))))))

/-! ## Versions in front of a text -/

variable {s rest version : Text} {c : Char}

theorem isRun_takeWhile {p : Char → Bool} (h : s.takeWhile p ≠ []) : IsRun p (s.takeWhile p) :=
  ⟨h, fun c hc => List.all_eq_true.mp List.all_takeWhile c hc⟩

theorem dottedDigits_run (n : Nat) {run : Text} (hrun : IsRun isDecimal run)
    (hrest : endsRun isDecimal rest = true) : dottedDigits (n + 1) ('.' :: (run ++ rest)) =
      ('.' :: run ++ (dottedDigits n rest).1, (dottedDigits n rest).2) := by
  obtain ⟨d, ds, rfl⟩ := List.exists_cons_of_ne_nil hrun.ne_nil
  rw [dottedDigits, takeWhile_run hrun.all hrest, dropWhile_run hrun.all hrest]

theorem dottedDigits_of_not_dot (n : Nat) (h : s.head? ≠ some '.') :
    dottedDigits n s = ([], s) := by
  cases n with
  | zero => rfl
  | succ n =>
    cases s with
    | nil => rfl
    | cons c s =>
      rw [dottedDigits]
      intro _ _ _ hs
      exact h (congrArg List.head? hs)

theorem dottedDigits_sound (n : Nat) (s : Text) : ∃ runs,
    s = dotted runs ++ (dottedDigits n s).2 ∧ (dottedDigits n s).1 = dotted runs ∧
      (∀ r ∈ runs, IsRun isDecimal r) ∧ runs.length ≤ n := by
  have hnone (s : Text) (n : Nat) (h : dottedDigits n s = ([], s)) : ∃ runs,
      s = dotted runs ++ (dottedDigits n s).2 ∧ (dottedDigits n s).1 = dotted runs ∧
        (∀ r ∈ runs, IsRun isDecimal r) ∧ runs.length ≤ n :=
    ⟨[], by rw [h]; rfl, by rw [h]; rfl, by simp, by simp⟩
  induction n generalizing s with
  | zero => exact hnone s 0 rfl
  | succ n ih =>
    by_cases hdot : s.head? = some '.'
    · obtain ⟨s, rfl⟩ := List.head?_eq_some_iff.mp hdot
      by_cases hrun : s.takeWhile isDecimal = []
      · exact hnone _ _ (by rw [dottedDigits, hrun])
      · have hread := dottedDigits_run n (isRun_takeWhile hrun) (endsRun_dropWhile isDecimal s)
        rw [List.takeWhile_append_dropWhile] at hread
        obtain ⟨runs, hs, hruns, hall, hlength⟩ := ih (s.dropWhile isDecimal)
        refine ⟨s.takeWhile isDecimal :: runs, ?_, ?_,
          List.forall_mem_cons.mpr ⟨isRun_takeWhile hrun, hall⟩, by simpa using hlength⟩
        · rw [hread]
          simp only [dotted, List.flatMap_cons, List.cons_append, List.append_assoc] at hs ⊢
          rw [← hs, List.takeWhile_append_dropWhile]
        · rw [hread, hruns]
          rfl
    · exact hnone s _ (dottedDigits_of_not_dot _ hdot)

theorem dottedDigits_complete {n : Nat} {runs : List Text} (hruns : ∀ r ∈ runs, IsRun isDecimal r)
    (hlength : runs.length ≤ n) (hdigit : endsRun isDecimal rest = true)
    (hdot : rest.head? ≠ some '.') : dottedDigits n (dotted runs ++ rest) = (dotted runs, rest) := by
  induction runs generalizing n with
  | nil => exact dottedDigits_of_not_dot n hdot
  | cons run runs ih =>
    obtain ⟨hrun, hruns⟩ := List.forall_mem_cons.mp hruns
    obtain ⟨n, rfl⟩ : ∃ m, n = m + 1 := Nat.exists_eq_add_one.mpr (Nat.lt_of_lt_of_le (by simp) hlength)
    have hends : endsRun isDecimal (dotted runs ++ rest) = true := by
      cases runs with
      | nil => exact hdigit
      | cons r runs => rfl
    have hfirst : dotted (run :: runs) ++ rest = '.' :: (run ++ (dotted runs ++ rest)) := by
      simp [dotted]
    rw [hfirst, dottedDigits_run n hrun hends, ih hruns (by simpa using hlength)]
    simp [dotted]

theorem isBlank_of_isSuffixChar (h : isSuffixChar c = true) : isBlank c = false := by
  simp only [isSuffixChar, Char.isAlphanum, Bool.or_eq_true, decide_eq_true_eq] at h
  rcases h with (halpha | hdigit) | rfl
  · exact isBlank_of_isAlpha halpha
  · exact isBlank_of_isDecimal (isDecimal_of_isDigit hdigit)
  · decide

theorem hyphenSuffix_of_not_hyphen (h : s.head? ≠ some '-') : hyphenSuffix s = ([], s) := by
  cases s with
  | nil => rfl
  | cons c s =>
    rw [hyphenSuffix]
    rintro _ ⟨⟩
    exact h rfl

theorem hyphenSuffix_run {run : Text} (hrun : IsRun isSuffixChar run)
    (hrest : endsRun isSuffixChar rest = true) :
    hyphenSuffix ('-' :: (run ++ rest)) = ('-' :: run, rest) := by
  obtain ⟨d, ds, rfl⟩ := List.exists_cons_of_ne_nil hrun.ne_nil
  rw [hyphenSuffix, takeWhile_run hrun.all hrest, dropWhile_run hrun.all hrest]

theorem hyphenSuffix_sound (s : Text) :
    s = (hyphenSuffix s).1 ++ (hyphenSuffix s).2 ∧ IsSuffix (hyphenSuffix s).1 := by
  by_cases hhyphen : s.head? = some '-'
  · obtain ⟨s, rfl⟩ := List.head?_eq_some_iff.mp hhyphen
    by_cases hrun : s.takeWhile isSuffixChar = []
    · rw [hyphenSuffix, hrun]
      exact ⟨rfl, .inl rfl⟩
    · have hread := hyphenSuffix_run (isRun_takeWhile hrun) (endsRun_dropWhile isSuffixChar s)
      rw [List.takeWhile_append_dropWhile] at hread
      rw [hread]
      exact ⟨by simp, .inr ⟨_, rfl, isRun_takeWhile hrun⟩⟩
  · rw [hyphenSuffix_of_not_hyphen hhyphen]
    exact ⟨rfl, .inl rfl⟩

theorem leadingVersion?_run {run : Text} (hrun : IsRun isDecimal run)
    (hrest : endsRun isDecimal rest = true) : leadingVersion? (run ++ rest) =
      some (run ++ (dottedDigits 3 rest).1 ++ (hyphenSuffix (dottedDigits 3 rest).2).1,
        (hyphenSuffix (dottedDigits 3 rest).2).2) := by
  obtain ⟨d, ds, rfl⟩ := List.exists_cons_of_ne_nil hrun.ne_nil
  rw [leadingVersion?, takeWhile_run hrun.all hrest, dropWhile_run hrun.all hrest]

theorem leadingVersion?_sound (h : leadingVersion? s = some (version, rest)) :
    s = version ++ rest ∧ IsVersionText version := by
  by_cases hrun : s.takeWhile isDecimal = []
  · rw [leadingVersion?, hrun] at h
    cases h
  · have hread := leadingVersion?_run (isRun_takeWhile hrun) (endsRun_dropWhile isDecimal s)
    rw [List.takeWhile_append_dropWhile, h, List.append_assoc] at hread
    cases hread
    obtain ⟨more, hmore, hruns, hall, hlength⟩ := dottedDigits_sound 3 (s.dropWhile isDecimal)
    obtain ⟨hrest, hsuffix⟩ := hyphenSuffix_sound (dottedDigits 3 (s.dropWhile isDecimal)).2
    rw [hruns]
    refine ⟨?_, .mk (isRun_takeWhile hrun) hall hlength hsuffix⟩
    simp only [List.append_assoc]
    rw [← hrest, ← hmore, List.takeWhile_append_dropWhile]

/-- Whether a text adds nothing to a version in front of it. -/
def EndsVersion (s : Text) : Prop :=
  endsRun (fun c => isDecimal c || isSuffixChar c || c == '-') s = true

theorem EndsVersion.endsRun {p : Char → Bool} (h : EndsVersion s)
    (hp : ∀ c, p c = true → isDecimal c = true ∨ isSuffixChar c = true ∨ c = '-') :
    Text.endsRun p s = true := by
  cases s with
  | nil => rfl
  | cons c s =>
    simp only [EndsVersion, Text.endsRun, List.head?_cons, Option.any_some, Bool.not_eq_true',
      Bool.or_eq_false_iff, beq_eq_false_iff_ne] at h ⊢
    rw [Bool.eq_false_iff]
    intro hc
    rcases hp c hc with hdecimal | hsuffix | hhyphen
    · simp [h] at hdecimal
    · simp [h] at hsuffix
    · exact h.2 hhyphen

theorem EndsVersion.head?_ne (h : EndsVersion s)
    (hc : isDecimal c = true ∨ isSuffixChar c = true ∨ c = '-') : s.head? ≠ some c := by
  intro hhead
  have hends := h.endsRun (p := (· == c)) fun d hd => by rwa [beq_iff_eq.mp hd]
  simp [Text.endsRun, hhead] at hends

theorem leadingVersion?_complete (hversion : IsVersionText version) (hrest : EndsVersion rest) :
    leadingVersion? (version ++ rest) = some (version, rest) := by
  obtain ⟨hrun, hmore, hlength, hsuffix⟩ := hversion
  rename_i run suffix more
  have hdigit : endsRun isDecimal (suffix ++ rest) = true := by
    rcases hsuffix with rfl | ⟨s, rfl, -⟩
    · exact hrest.endsRun fun c hc => .inl hc
    · rfl
  have hdot : (suffix ++ rest).head? ≠ some '.' := by
    rcases hsuffix with rfl | ⟨s, rfl, -⟩
    · exact hrest.head?_ne (by decide)
    · simp
  have hdigits : endsRun isDecimal (dotted more ++ (suffix ++ rest)) = true := by
    cases more with
    | nil => exact hdigit
    | cons r more => rfl
  have hread : hyphenSuffix (suffix ++ rest) = (suffix, rest) := by
    rcases hsuffix with rfl | ⟨s, rfl, hs⟩
    · exact hyphenSuffix_of_not_hyphen (hrest.head?_ne (by decide))
    · exact hyphenSuffix_run hs (hrest.endsRun fun c hc => .inr (.inl hc))
  simp only [List.append_assoc]
  rw [leadingVersion?_run hrun hdigits, dottedDigits_complete hmore hlength hdigit hdot, hread]
  simp

/-! ## Headings -/

variable {line front : Text}

theorem dropOne_sound (c : Char) (s : Text) :
    ∃ front, s = front ++ dropOne c s ∧ (front = [] ∨ front = [c]) := by
  cases s with
  | nil => exact ⟨[], rfl, .inl rfl⟩
  | cons a s =>
    rw [dropOne]
    split
    · rename_i hac
      exact ⟨[a], rfl, .inr (by rw [hac])⟩
    · exact ⟨[], rfl, .inl rfl⟩

theorem dropOne_complete (hfront : front = [] ∨ front = [c]) (hs : s.head? ≠ some c) :
    dropOne c (front ++ s) = s := by
  rcases hfront with rfl | rfl
  · cases s with
    | nil => rfl
    | cons a s => exact if_neg fun hac => hs (congrArg some hac)
  · exact if_pos rfl

theorem endsVersion_closing {closing : Text} (hclosing : closing = [] ∨ closing = [']'])
    (hrest : rest.head?.all isBlank = true) : EndsVersion (closing ++ rest) := by
  rcases hclosing with rfl | rfl
  · cases rest with
    | nil => rfl
    | cons c rest =>
      have hblank : isBlank c = true := hrest
      have hversion : ∀ d, isDecimal d = true ∨ isSuffixChar d = true ∨ d = '-' →
          isBlank d = false := by
        rintro d (hdecimal | hsuffix | rfl)
        · exact isBlank_of_isDecimal hdecimal
        · exact isBlank_of_isSuffixChar hsuffix
        · decide
      simp only [EndsVersion, Text.endsRun, List.nil_append, List.head?_cons, Option.any_some,
        Bool.not_eq_true']
      rw [← Bool.not_eq_true]
      intro hc
      simp only [Bool.or_eq_true, beq_iff_eq, or_assoc] at hc
      rw [hversion c hc] at hblank
      cases hblank
  · rfl

theorem IsVersionText.head? (h : IsVersionText version) (s : Text) :
    ∃ c, (version ++ s).head? = some c ∧ isDecimal c = true := by
  obtain ⟨hrun, -, -, -⟩ := h
  obtain ⟨d, ds, rfl⟩ := List.exists_cons_of_ne_nil hrun.ne_nil
  exact ⟨d, rfl, hrun.all d List.mem_cons_self⟩

theorem IsVersionText.head?_ne (h : IsVersionText version) (hc : isDecimal c = false) (s : Text) :
    (version ++ s).head? ≠ some c := by
  intro hhead
  obtain ⟨d, hd, hdigit⟩ := h.head? s
  rw [hhead] at hd
  cases hd
  rw [hc] at hdigit
  cases hdigit

theorem eq_replicate_takeWhile (c : Char) (s : Text) :
    s.takeWhile (· == c) = List.replicate (s.takeWhile (· == c)).length c :=
  List.eq_replicate_iff.mpr ⟨rfl, fun _ hd => beq_iff_eq.mp ((isRun_takeWhile
    (List.ne_nil_of_mem hd)).all _ hd)⟩

theorem headingVersion?_sound (h : headingVersion? line = some version) :
    IsHeading version line := by
  simp only [headingVersion?] at h
  generalize hmarks : line.takeWhile (· == '#') = marks at h
  generalize hrest : line.dropWhile (· == '#') = rest at h
  split at h
  · cases h
  · rename_i hshape
    simp only [Bool.or_eq_true, List.isEmpty_iff, decide_eq_true_eq, beq_iff_eq, not_or,
      Nat.not_lt] at hshape
    obtain ⟨⟨hfew, hmany⟩, hblanks⟩ := hshape
    split at h
    · cases h
    · rename_i found after hversion
      obtain ⟨htext, hfound⟩ := leadingVersion?_sound hversion
      obtain ⟨bracket, hbracket, hisBracket⟩ := dropOne_sound '[' (Text.trimStart rest)
      obtain ⟨mark, hmark, hisMark⟩ := dropOne_sound 'v' (dropOne '[' (Text.trimStart rest))
      obtain ⟨closing, hclosing, hisClosing⟩ := dropOne_sound ']' after
      have hblank : (dropOne ']' after).head?.all isBlank = true ∧ found = version := by
        split at h
        · rename_i hend
          cases h
          exact ⟨by rw [hend]; rfl, rfl⟩
        · rename_i c _ hend
          split at h
          · rename_i hc
            cases h
            exact ⟨by rw [hend]; exact hc, rfl⟩
          · cases h
      obtain ⟨hblank, rfl⟩ := hblank
      have hgap : rest.takeWhile isBlank ≠ [] := by
        intro hnone
        refine hblanks (congrArg List.length ?_)
        have hsplit := List.takeWhile_append_dropWhile (p := isBlank) (l := rest)
        rwa [hnone, List.nil_append] at hsplit
      -- each piece is what its reader dropped or took, put together again from the last one on
      have hline : line = List.replicate marks.length '#' ++ (rest.takeWhile isBlank ++
          (bracket ++ (mark ++ (found ++ (closing ++ dropOne ']' after))))) :=
        calc line = marks ++ rest := by rw [← hmarks, ← hrest, List.takeWhile_append_dropWhile]
          _ = List.replicate marks.length '#' ++ rest := by
            rw [← hmarks, ← eq_replicate_takeWhile]
          _ = List.replicate marks.length '#' ++ (rest.takeWhile isBlank ++ Text.trimStart rest) := by
            rw [Text.trimStart, List.takeWhile_append_dropWhile]
          _ = _ := by rw [← hclosing, ← htext, ← hmark, ← hbracket]
      rw [hline]
      exact .mk (List.length_pos_iff.mpr hfew) hmany (isRun_takeWhile hgap) hisBracket hisMark
        hfound hisClosing hblank

theorem headingVersion?_complete (h : IsHeading version line) :
    headingVersion? line = some version := by
  obtain @⟨n, blanks, bracket, mark, closing, rest, hfew, hmany, hblanks, hbracket, hmark, hversion,
    hclosing, hrest⟩ := h
  -- a digit stands behind the mark, so that neither the bracket nor the mark is a part of it
  have hopen : (mark ++ (version ++ (closing ++ rest))).head? ≠ some '[' := by
    rcases hmark with rfl | rfl
    · exact hversion.head?_ne (by decide) _
    · simp
  have htext : endsRun isBlank (bracket ++ (mark ++ (version ++ (closing ++ rest)))) = true := by
    rcases hbracket with rfl | rfl
    · rcases hmark with rfl | rfl
      · obtain ⟨d, hhead, hdigit⟩ := hversion.head? (closing ++ rest)
        simp [endsRun, hhead, isBlank_of_isDecimal hdigit]
      · rfl
    · rfl
  have hmarks : endsRun (· == '#')
      (blanks ++ (bracket ++ (mark ++ (version ++ (closing ++ rest))))) = true := by
    obtain ⟨b, bs, rfl⟩ := List.exists_cons_of_ne_nil hblanks.ne_nil
    have hb := hblanks.all b List.mem_cons_self
    simp only [endsRun, List.cons_append, List.head?_cons, Option.any_some, Bool.not_eq_true',
      beq_eq_false_iff_ne]
    rintro rfl
    exact absurd hb (by decide)
  have hclosed : dropOne ']' (closing ++ rest) = rest := by
    refine dropOne_complete hclosing ?_
    intro hbracket
    rw [hbracket] at hrest
    exact absurd hrest (by decide)
  have hsharps : ∀ c ∈ List.replicate n '#', (c == '#') = true :=
    fun c hc => beq_iff_eq.mpr (List.eq_of_mem_replicate hc)
  have hshape (text : Text) : ((List.replicate n '#').isEmpty ||
      decide (6 < (List.replicate n '#').length) ||
        text.length == (blanks ++ text).length) = false := by
    have hgap : 0 < blanks.length := List.length_pos_iff.mpr hblanks.ne_nil
    simp only [Bool.or_eq_false_iff, decide_eq_false_iff_not, beq_eq_false_iff_ne,
      List.length_append, List.length_replicate, List.isEmpty_eq_false_iff, ne_eq,
      List.replicate_eq_nil_iff]
    omega
  simp only [headingVersion?, takeWhile_run hsharps hmarks, dropWhile_run hsharps hmarks,
    Text.trimStart, dropWhile_run hblanks.all htext, hshape, dropOne_complete hbracket hopen,
    dropOne_complete hmark (hversion.head?_ne (by decide) _),
    leadingVersion?_complete hversion (endsVersion_closing hclosing hrest), hclosed]
  cases rest with
  | nil => rfl
  | cons c rest => exact if_pos hrest

/-- A line is read as the heading of a version exactly when it is one. -/
theorem headingVersion?_eq_some_iff :
    headingVersion? line = some version ↔ IsHeading version line :=
  ⟨headingVersion?_sound, headingVersion?_complete⟩

end Changelog

end ExtensionAudit
