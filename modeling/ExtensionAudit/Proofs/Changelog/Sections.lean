import Mathlib.Data.List.Count
import Mathlib.Data.List.Induction
import ExtensionAudit.Proofs.Changelog.Headings
/-
  The sections of a changelog. Its headings divide the lines: some lines stand in front
  of the first one, and each heading has the lines up to the next. The reader keeps the
  sections read so far, the last one open, so that at the end every section is an entry
  and its lines are the body.

  Main statement: `parse_sections`.
-/

namespace ExtensionAudit

namespace Changelog

/-- Whether a line opens an entry. -/
def isHeadingLine (line : Text) : Bool := (headingVersion? (Text.trimEnd line)).isSome

/-- A heading with the version it is about, and the lines up to the next heading. -/
structure Section where
  heading : Text
  version : Text
  body : List Text
  reads : headingVersion? (Text.trimEnd heading) = some version
  plain : ∀ line ∈ body, isHeadingLine line = false

namespace Section

/-- The lines of a section, its heading in front. -/
def lines (s : Section) : List Text := s.heading :: s.body

/-- The entry that a section makes. -/
def entry (s : Section) : ChangelogEntry := ⟨String.ofList s.version, bodyOf s.body⟩

def add (s : Section) (line : Text) (h : isHeadingLine line = false) : Section where
  heading := s.heading
  version := s.version
  body := s.body ++ [line]
  reads := s.reads
  plain := by simpa [or_imp, forall_and] using ⟨s.plain, h⟩

theorem isHeadingLine_heading (s : Section) : isHeadingLine s.heading = true := by
  simp [isHeadingLine, s.reads]

theorem countP_lines (s : Section) : s.lines.countP isHeadingLine = 1 := by
  have hbody : s.body.countP isHeadingLine = 0 :=
    List.countP_eq_zero.mpr fun line hline => by simp [s.plain line hline]
  rw [lines, List.countP_cons_of_pos s.isHeadingLine_heading, hbody]

end Section

/-! ## Reading -/

namespace Reading

/-- The state in which sections are read, the last section first. -/
def ofSections : List Section → Reading
  | [] => start
  | s :: earlier => ⟨⟨String.ofList s.version, ""⟩ :: earlier.map Section.entry, s.body.reverse⟩

variable {line : Text}

theorem close_ofSections (sections : List Section) :
    (ofSections sections).close = sections.map Section.entry := by
  cases sections with
  | nil => rfl
  | cons s earlier => simp [ofSections, close, Section.entry]

theorem next_of_heading {version : Text} (h : headingVersion? (Text.trimEnd line) = some version)
    (sections : List Section) : (ofSections sections).next line =
      ofSections (⟨line, version, [], h, by simp⟩ :: sections) := by
  rw [next, h]
  simp only [close_ofSections]
  rfl

theorem next_of_plain (h : isHeadingLine line = false) (s : Section) (earlier : List Section) :
    (ofSections (s :: earlier)).next line = ofSections (s.add line h :: earlier) := by
  have hnone : headingVersion? (Text.trimEnd line) = none := by simpa [isHeadingLine] using h
  rw [next, hnone]
  simp [ofSections, Section.add]

theorem next_start (h : isHeadingLine line = false) : start.next line = start := by
  have hnone : headingVersion? (Text.trimEnd line) = none := by simpa [isHeadingLine] using h
  rw [next, hnone]
  rfl

theorem exists_sections (lines : List Text) : ∃ (front : List Text) (sections : List Section),
    (∀ line ∈ front, isHeadingLine line = false) ∧
      lines = front ++ sections.reverse.flatMap Section.lines ∧
      lines.foldl next start = ofSections sections := by
  induction lines using List.reverseRecOn with
  | nil => exact ⟨[], [], by simp, rfl, rfl⟩
  | append_singleton lines line ih =>
    obtain ⟨front, sections, hfront, hlines, hread⟩ := ih
    rw [List.foldl_append, hread]
    by_cases hline : isHeadingLine line = true
    · obtain ⟨version, hversion⟩ := Option.isSome_iff_exists.mp hline
      refine ⟨front, ⟨line, version, [], hversion, by simp⟩ :: sections, hfront, ?_,
        next_of_heading hversion sections⟩
      simp [hlines, Section.lines]
    · rw [Bool.not_eq_true] at hline
      cases sections with
      | nil =>
        refine ⟨front ++ [line], [], ?_, by simpa using hlines, next_start hline⟩
        simpa [or_imp, forall_and] using ⟨hfront, hline⟩
      | cons s earlier =>
        refine ⟨front, s.add line hline :: earlier, hfront, ?_, next_of_plain hline s earlier⟩
        simp [hlines, Section.lines, Section.add]

end Reading

theorem exists_division (lines : List Text) : ∃ (front : List Text) (sections : List Section),
    (∀ line ∈ front, isHeadingLine line = false) ∧
      lines = front ++ sections.flatMap Section.lines ∧
      entriesOf lines = sections.map Section.entry := by
  obtain ⟨front, sections, hfront, hlines, hread⟩ := Reading.exists_sections lines
  refine ⟨front, sections.reverse, hfront, hlines, ?_⟩
  rw [entriesOf, hread, Reading.close_ofSections, List.map_reverse]

/-! ## Places -/

def headingPlaces (lines : List Text) : List Nat := lines.findIdxs isHeadingLine

/-- The lines strictly between two places. -/
def between (lines : List Text) (i k : Nat) : List Text := (lines.take k).drop (i + 1)

variable {front : List Text} {sections : List Section}

theorem mem_headingPlaces {lines : List Text} {i : Nat} : i ∈ headingPlaces lines ↔
    ∃ line version, lines[i]? = some line ∧ IsHeading version (Text.trimEnd line) := by
  simp only [headingPlaces, List.mem_findIdxs_iff_exists_getElem_pos, isHeadingLine,
    Option.isSome_iff_exists, headingVersion?_eq_some_iff, List.getElem?_eq_some_iff]
  constructor
  · rintro ⟨hi, version, h⟩
    exact ⟨_, version, ⟨hi, rfl⟩, h⟩
  · rintro ⟨_, version, ⟨hi, rfl⟩, h⟩
    exact ⟨hi, version, h⟩

theorem length_headingPlaces (hfront : ∀ line ∈ front, isHeadingLine line = false)
    (sections : List Section) :
    (headingPlaces (front ++ sections.flatMap Section.lines)).length = sections.length := by
  have hnone : front.countP isHeadingLine = 0 :=
    List.countP_eq_zero.mpr fun line hline => by simp [hfront line hline]
  have hone : List.countP isHeadingLine ∘ Section.lines = fun _ => 1 :=
    funext Section.countP_lines
  rw [headingPlaces, List.length_findIdxs, List.countP_append, hnone, List.countP_flatMap, hone]
  simp [List.map_const']

theorem findIdxs_of_plain {body : List Text} (h : ∀ line ∈ body, isHeadingLine line = false)
    (lines : List Text) (n : Nat) : (body ++ lines).findIdxs isHeadingLine n =
      lines.findIdxs isHeadingLine (n + body.length) := by
  rw [List.findIdxs_append, List.findIdxs_eq_nil_iff.mpr h, List.nil_append]

theorem head?_findIdxs_sections (sections : List Section) (n : Nat) :
    ((sections.flatMap Section.lines).findIdxs isHeadingLine n).head?.getD
      (n + (sections.flatMap Section.lines).length) = n := by
  cases sections with
  | nil => rfl
  | cons s sections => simp [Section.lines, s.isHeadingLine_heading]

theorem headingPlaces_section (before : List Text) (s : Section) (later : List Section) :
    headingPlaces (before ++ (s.lines ++ later.flatMap Section.lines)) = headingPlaces before ++
      before.length :: (later.flatMap Section.lines).findIdxs isHeadingLine
        (before.length + 1 + s.body.length) := by
  rw [headingPlaces, List.findIdxs_append, Section.lines, List.cons_append, List.findIdxs_cons,
    if_pos s.isHeadingLine_heading, findIdxs_of_plain s.plain, Nat.zero_add]
  rfl

theorem between_section (before after : List Text) (s : Section) :
    between (before ++ (s.lines ++ after)) before.length (before.length + 1 + s.body.length) =
      s.body := by
  have hlength : before.length + 1 + s.body.length = (before ++ s.lines).length := by
    simp only [Section.lines, List.length_append, List.length_cons]
    omega
  rw [between, ← List.append_assoc, hlength, List.take_left, Section.lines, ← List.drop_drop,
    List.drop_left]
  rfl

/-- A section among the lines, at the place of its heading: its body is what stands between there
and the next heading, or the end. -/
theorem exists_section_at {lines : List Text}
    (hfront : ∀ line ∈ front, isHeadingLine line = false)
    (hlines : lines = front ++ sections.flatMap Section.lines) {j i : Nat}
    (hplace : (headingPlaces lines)[j]? = some i) : ∃ s, sections[j]? = some s ∧
      lines[i]? = some s.heading ∧
        between lines i ((headingPlaces lines)[j + 1]?.getD lines.length) = s.body := by
  have hj : j < sections.length := by
    rw [← length_headingPlaces hfront sections, ← hlines]
    exact (List.getElem?_eq_some_iff.mp hplace).1
  obtain ⟨s, earlier, later, hsections, hearlier⟩ :
      ∃ s earlier later, sections = earlier ++ s :: later ∧ earlier.length = j :=
    ⟨sections[j], sections.take j, sections.drop (j + 1), by simp, by simp [Nat.le_of_lt hj]⟩
  subst hearlier hsections
  have hbefore : lines = (front ++ earlier.flatMap Section.lines) ++
      (s.lines ++ later.flatMap Section.lines) := by
    rw [hlines, List.flatMap_append, List.flatMap_cons, List.append_assoc]
  have hcount := length_headingPlaces hfront earlier
  generalize front ++ earlier.flatMap Section.lines = before at hbefore hcount
  have hplaces := headingPlaces_section before s later
  rw [← hbefore] at hplaces
  have hi : i = before.length := by
    rw [hplaces, List.getElem?_append_right (Nat.le_of_eq hcount), hcount, Nat.sub_self] at hplace
    exact (Option.some.inj hplace).symm
  -- the section ends where the next heading stands, or with the text
  have hnext : (headingPlaces lines)[earlier.length + 1]?.getD lines.length =
      before.length + 1 + s.body.length := by
    have hend : lines.length = before.length + 1 + s.body.length +
        (later.flatMap Section.lines).length := by
      simp only [hbefore, Section.lines, List.length_append, List.length_cons]
      omega
    rw [hplaces, List.getElem?_append_right (by omega), hcount, Nat.add_sub_cancel_left,
      List.getElem?_cons_succ, ← List.head?_eq_getElem?, hend]
    exact head?_findIdxs_sections later _
  rw [hnext, hi, hbefore]
  exact ⟨s, by simp, by simp [Section.lines], between_section before _ s⟩

theorem get?_eq_some_iff {c : Changelog} {version body : String} : c.get? version = some body ↔
    ∃ j : Nat, c.entries[j]? = some ⟨version, body⟩ ∧
      ∀ k < j, ∀ e, c.entries[k]? = some e → e.version ≠ version := by
  simp only [get?, Option.map_eq_some_iff, List.find?_eq_some_iff_getElem, beq_iff_eq]
  constructor
  · rintro ⟨e, ⟨rfl, j, hj, rfl, hfirst⟩, rfl⟩
    refine ⟨j, List.getElem?_eq_getElem hj, fun k hk e he => ?_⟩
    obtain ⟨hk', rfl⟩ := List.getElem?_eq_some_iff.mp he
    simpa using hfirst k hk
  · rintro ⟨j, hentry, hfirst⟩
    obtain ⟨hj, hentry⟩ := List.getElem?_eq_some_iff.mp hentry
    refine ⟨⟨version, body⟩, ⟨rfl, j, hj, hentry, fun k hk => ?_⟩, rfl⟩
    simpa using hfirst k hk _ (List.getElem?_eq_getElem (Nat.lt_trans hk hj))

/-- What a changelog is read as. Every line that is the heading of a version opens an entry, in
the order of the lines, and the body of an entry is the lines strictly between its heading and the
next one, or the end. The lines in front of the first heading are in no entry. A version is looked
up in the first entry that has it. -/
theorem parse_sections (content : String) : ∃ places : List Nat, places.Pairwise (· < ·) ∧
    (∀ i, i ∈ places ↔ ∃ line version, (Text.lines content.toList)[i]? = some line ∧
      IsHeading version (Text.trimEnd line)) ∧
    (parse content).entries.length = places.length ∧
    (∀ (j i : Nat) (line version : Text), places[j]? = some i → (Text.lines content.toList)[i]? = some line →
      IsHeading version (Text.trimEnd line) →
        (parse content).entries[j]? = some ⟨String.ofList version,
          bodyOf (between (Text.lines content.toList) i
            (places[j + 1]?.getD (Text.lines content.toList).length))⟩) ∧
    ∀ version body, (parse content).get? version = some body ↔
      ∃ j : Nat, (parse content).entries[j]? = some ⟨version, body⟩ ∧
        ∀ k < j, ∀ e, (parse content).entries[k]? = some e → e.version ≠ version := by
  obtain ⟨front, sections, hfront, hlines, hentries⟩ := exists_division (Text.lines content.toList)
  have hparse : (parse content).entries = sections.map Section.entry := hentries
  refine ⟨headingPlaces (Text.lines content.toList), List.pairwise_findIdxs,
    fun i => mem_headingPlaces, ?_, ?_, fun _ _ => get?_eq_some_iff⟩
  · rw [hparse, List.length_map, hlines, length_headingPlaces hfront]
  · intro j i line version hplace hline hversion
    obtain ⟨s, hs, hheading, hbody⟩ := exists_section_at hfront hlines hplace
    obtain rfl : s.heading = line := Option.some.inj (hheading.symm.trans hline)
    obtain rfl : s.version = version :=
      Option.some.inj (s.reads.symm.trans (headingVersion?_eq_some_iff.mpr hversion))
    rw [hparse, List.getElem?_map, hs, hbody]
    rfl

/-- A version may have two entries, and an entry may be empty. -/
example : parse "Notes\n# 1.0.0\n### Fixed\n- A\n\n## [v1.0.0] - today\n" =
    ⟨[⟨"1.0.0", "### Fixed\n- A"⟩, ⟨"1.0.0", ""⟩]⟩ := by
  decide +kernel

end Changelog

end ExtensionAudit
