import ExtensionAudit.Php.Table
import ExtensionAudit.Proofs.Files.Listing
import ExtensionAudit.Proofs.Results
import ExtensionAudit.Proofs.Version.LowerBound
/-
  The PHP version of a constraint. A table is ordered by the texts of its releases
  and searched in the order of the versions that they stand for: the lowest one
  that the constraint admits counts, of equal ones the first in the table, and a
  text that is no release counts for nothing.

  Main statement: `CompatibilityTable.phpVersion_lowest`.
-/

namespace ExtensionAudit

theorem Text.isBefore_trans {s t r : Text} (h : isBefore s t = true) (h' : isBefore t r = true) :
    isBefore s r = true := by
  have hback : isBefore r s = false := not_isBefore_trans (isBefore_asymm h) (isBefore_asymm h')
  rw [← Bool.not_eq_false]
  intro hsr
  obtain rfl := eq_of_not_isBefore hsr hback
  rw [isBefore_asymm h] at h'
  cases h'

/-! ## Searching a sorted list -/

section Sorted

variable {α : Type} {le : α → α → Bool} (trans : ∀ a b c, le a b = true → le b c = true → le a c = true)
  (total : ∀ a b, (le a b || le b a) = true) {p : α → Bool} {as : List α} {a : α}

include trans total

theorem exists_split_of_find?_mergeSort (h : (as.mergeSort le).find? p = some a) :
    p a = true ∧ ∃ front back, as = front ++ a :: back ∧
      (∀ b ∈ front, p b = true → le b a = false) ∧ ∀ b ∈ back, p b = true → le a b = true := by
  induction as with
  | nil => simp at h
  | cons x as ih =>
    obtain ⟨lower, upper, hsorted, has, hlower⟩ := List.mergeSort_cons trans total x as
    have hpairs := List.pairwise_mergeSort trans total (x :: as)
    rw [hsorted] at h hpairs
    rw [List.find?_append] at h
    rw [has, List.find?_append] at ih
    cases hfirst : lower.find? p with
    | some found =>
      -- what comes below the new element is found without it too
      rw [hfirst, Option.some_or] at h ih
      obtain ⟨hp, front, back, rfl, hfront, hback⟩ := ih h
      refine ⟨hp, x :: front, back, rfl, List.forall_mem_cons.mpr ⟨fun _ => ?_, hfront⟩, hback⟩
      cases h
      simpa using hlower a (List.mem_of_find?_eq_some hfirst)
    | none =>
      rw [hfirst, Option.none_or] at h ih
      rw [List.find?_cons] at h
      cases hx : p x with
      | true =>
        obtain rfl : x = a := by simpa [hx] using h
        refine ⟨hx, [], as, rfl, by simp, fun b hb hpb => ?_⟩
        have hmem : b ∈ lower ++ upper := by
          rw [← has, List.mem_mergeSort]
          exact hb
        rcases List.mem_append.mp hmem with hb | hb
        · exact absurd hpb (List.find?_eq_none.mp hfirst b hb)
        · exact (List.pairwise_cons.mp (List.pairwise_append.mp hpairs).2.1).1 b hb
      | false =>
        rw [hx] at h
        obtain ⟨hp, front, back, rfl, hfront, hback⟩ := ih h
        refine ⟨hp, x :: front, back, rfl, List.forall_mem_cons.mpr ⟨fun hpx => ?_, hfront⟩, hback⟩
        simp [hx] at hpx

/-- The first element of a sorted list with a property is the least one that has it, and of equal
ones the one that was in front before sorting. -/
theorem find?_mergeSort_eq_some_iff : (as.mergeSort le).find? p = some a ↔
    p a = true ∧ ∃ front back, as = front ++ a :: back ∧
      (∀ b ∈ front, p b = true → le b a = false) ∧ ∀ b ∈ back, p b = true → le a b = true := by
  constructor
  · exact exists_split_of_find?_mergeSort trans total
  · rintro ⟨hp, front, back, has, hfront, hback⟩
    cases hfound : (as.mergeSort le).find? p with
    | none =>
      have hmem : a ∈ as.mergeSort le := List.mem_mergeSort.mpr (by simp [has])
      exact absurd hp (List.find?_eq_none.mp hfound a hmem)
    | some b =>
      -- of two such elements neither stands in front of the other
      obtain ⟨hpb, front', back', has', hfront', hback'⟩ :=
        exists_split_of_find?_mergeSort trans total hfound
      rw [has] at has'
      rcases List.append_eq_append_iff.mp has' with ⟨between, rfl, hrest⟩ | ⟨between, rfl, hrest⟩
      · rcases List.cons_eq_append_iff.mp hrest with ⟨rfl, hcons⟩ | ⟨more, rfl, rfl⟩
        · exact congrArg some (List.cons.inj hcons).1
        · have hle := hback b (by simp) hpb
          rw [hfront' a (by simp) hp] at hle
          cases hle
      · rcases List.cons_eq_append_iff.mp hrest with ⟨rfl, hcons⟩ | ⟨more, rfl, rfl⟩
        · exact congrArg some (List.cons.inj hcons).1.symm
        · have hle := hback' a (by simp) hp
          rw [hfront b (by simp) hpb] at hle
          cases hle

end Sorted

namespace CompatibilityTable

/-! ## Ordered tables -/

/-- Whether a table is ordered by the texts of its releases, each of which stands once. -/
def IsOrdered {α : Type} (entries : List (String × α)) : Prop :=
  entries.Pairwise fun a b => Text.isBefore a.1.toList b.1.toList = true

instance {α : Type} (entries : List (String × α)) : Decidable (IsOrdered entries) :=
  inferInstanceAs (Decidable (entries.Pairwise _))

variable {α : Type} {entries : List (String × α)}

theorem mem_put {key : String} {a : α} {p : String × α} (h : p ∈ Json.put key a entries) :
    p = (key, a) ∨ p ∈ entries := by
  induction entries with
  | nil => simpa [Json.put] using h
  | cons entry entries ih =>
    obtain ⟨k, b⟩ := entry
    unfold Json.put at h
    split at h
    · rcases List.mem_cons.mp h with rfl | h
      · exact .inl rfl
      · exact .inr (List.mem_cons_of_mem _ h)
    · split at h
      · rcases List.mem_cons.mp h with rfl | h
        · exact .inr List.mem_cons_self
        · exact (ih h).imp_right (List.mem_cons_of_mem _)
      · exact List.mem_cons.mp h

theorem IsOrdered.put (h : IsOrdered entries) (key : String) (a : α) :
    IsOrdered (Json.put key a entries) := by
  induction entries with
  | nil => simp [Json.put, IsOrdered]
  | cons entry entries ih =>
    obtain ⟨k, b⟩ := entry
    obtain ⟨hfirst, hrest⟩ := List.pairwise_cons.mp h
    unfold Json.put
    split
    · rename_i hk
      subst hk
      exact List.pairwise_cons.mpr ⟨hfirst, hrest⟩
    · rename_i hk
      split
      · rename_i hbefore
        refine List.pairwise_cons.mpr ⟨fun p hp => ?_, ih hrest⟩
        rcases mem_put hp with rfl | hp
        · exact hbefore
        · exact hfirst p hp
      · rename_i hbefore
        -- neither the same nor behind, the key stands in front of all
        have hkey : Text.isBefore key.toList k.toList = true := by
          rw [← Bool.not_eq_false]
          intro hnot
          exact hk (String.toList_inj.mp
            (Text.eq_of_not_isBefore (by simpa using hbefore) hnot))
        refine List.pairwise_cons.mpr ⟨List.forall_mem_cons.mpr ⟨hkey, fun p hp => ?_⟩, h⟩
        exact Text.isBefore_trans hkey (hfirst p hp)

theorem isOrdered_of_foldlM {β : Type} {next : List (String × α) → β → Option (List (String × α))}
    (hnext : ∀ before b after, IsOrdered before → next before b = some after → IsOrdered after)
    {bs : List β} {before : List (String × α)} (hbefore : IsOrdered before)
    (h : bs.foldlM next before = some entries) : IsOrdered entries := by
  induction bs generalizing before with
  | nil =>
    cases h
    exact hbefore
  | cons b bs ih =>
    rw [List.foldlM_cons] at h
    obtain ⟨after, hafter, h⟩ := Option.bind_eq_some_iff.mp h
    exact ih (hnext before b after hbefore hafter) h

theorem isOrdered_of_table? {value : Json.Value → Option α} {v : Json.Value}
    (h : Json.table? value v = some entries) : IsOrdered entries := by
  cases v with
  | record members =>
    refine isOrdered_of_foldlM (fun before member after hbefore hafter => ?_) List.Pairwise.nil h
    obtain ⟨name, v⟩ := member
    obtain ⟨key, -, hafter⟩ := Option.bind_eq_some_iff.mp hafter
    obtain ⟨a, -, hafter⟩ := Option.bind_eq_some_iff.mp hafter
    cases hafter
    exact hbefore.put key a
  | _ => cases h

theorem isOrdered_of_cached {dir : Path} {fs : FileSystem} {entries : List (String × String)}
    (h : (cached dir).entries fs = .ok entries) : IsOrdered entries := by
  simp only [cached] at h
  split at h
  · cases h
  · split at h
    · rename_i found hfound
      cases h
      obtain ⟨content, -, hparse⟩ := Option.bind_eq_some_iff.mp hfound
      obtain ⟨v, -, htable⟩ := Option.bind_eq_some_iff.mp hparse
      exact isOrdered_of_table? htable
    · cases h

/-! ## The lowest release -/

section Lowest

variable {entries front back : List (String × String)} {releasesFront releasesBack : List (Version × String)}
  {c : Constraint} {release php : String} {v : Version}

/-- A release of a table that a constraint admits: its text, the PHP version that it needs, and
the version that the text stands for. -/
structure Admitted (entries : List (String × String)) (c : Constraint) (release php : String)
    (v : Version) : Prop where
  listed : (release, php) ∈ entries
  reads : Version.parse release = .ok v
  admitted : c.admits v = true

/-- The lowest release that is admitted; of equal ones the first by its text. -/
structure IsLowest (entries : List (String × String)) (c : Constraint) (release php : String)
    (v : Version) : Prop extends Admitted entries c release php v where
  least : ∀ release' php' v', Admitted entries c release' php' v' → v ≤ v'
  first : ∀ release' php' v', Admitted entries c release' php' v' → v.Same v' →
    release' = release ∨ Text.isBefore release.toList release'.toList = true

theorem isLowest_iff : IsLowest entries c release php v ↔ Admitted entries c release php v ∧
    (∀ release' php' v', Admitted entries c release' php' v' → v ≤ v') ∧
    ∀ release' php' v', Admitted entries c release' php' v' → v.Same v' →
      release' = release ∨ Text.isBefore release.toList release'.toList = true :=
  ⟨fun h => ⟨h.toAdmitted, h.least, h.first⟩, fun ⟨h, hleast, hfirst⟩ => ⟨h, hleast, hfirst⟩⟩

theorem releases_append (front back : List (String × String)) :
    releases (front ++ back) = releases front ++ releases back := List.filterMap_append

theorem releases_cons_of_ok (h : Version.parse release = .ok v) :
    releases ((release, php) :: back) = (v, php) :: releases back := by
  simp [releases, h]

theorem mem_releases : (v, php) ∈ releases entries ↔
    ∃ release, (release, php) ∈ entries ∧ Version.parse release = .ok v := by
  rw [releases, List.mem_filterMap]
  constructor
  · rintro ⟨⟨release, php'⟩, hmem, h⟩
    cases hparse : Version.parse release with
    | error fault => simp [hparse] at h
    | ok v' =>
      obtain ⟨rfl, rfl⟩ : v' = v ∧ php' = php := by simpa [hparse] using h
      exact ⟨release, hmem, hparse⟩
  · rintro ⟨release, hmem, hparse⟩
    exact ⟨(release, php), hmem, by simp [hparse]⟩

theorem exists_of_releases_eq (h : releases entries = releasesFront ++ (v, php) :: releasesBack) :
    ∃ front release back, entries = front ++ (release, php) :: back ∧
      Version.parse release = .ok v ∧ releases front = releasesFront ∧
      releases back = releasesBack := by
  obtain ⟨front, rest, rfl, hfront, hrest⟩ := List.filterMap_eq_append_iff.mp h
  obtain ⟨skipped, ⟨release, php'⟩, back, rfl, hskipped, hread, hback⟩ :=
    List.filterMap_eq_cons_iff.mp hrest
  cases hparse : Version.parse release with
  | error fault => simp [hparse] at hread
  | ok v' =>
    obtain ⟨rfl, rfl⟩ : v' = v ∧ php' = php := by simpa [hparse] using hread
    have hnone : releases skipped = [] := List.filterMap_eq_nil_iff.mpr hskipped
    refine ⟨front ++ skipped, release, back, by simp, hparse, ?_, hback⟩
    rw [releases_append, hnone, List.append_nil]
    exact hfront

theorem lowest?_eq_some_iff : lowest? entries c = some php ↔
    ∃ v, c.admits v = true ∧ ∃ front back, releases entries = front ++ (v, php) :: back ∧
      (∀ p ∈ front, c.admits p.1 = true → ¬ p.1 ≤ v) ∧
      ∀ p ∈ back, c.admits p.1 = true → v ≤ p.1 := by
  have htrans (a b c : Version × String) (hab : decide (a.1 ≤ b.1) = true)
      (hbc : decide (b.1 ≤ c.1) = true) : decide (a.1 ≤ c.1) = true :=
    decide_eq_true (Version.le_trans (of_decide_eq_true hab) (of_decide_eq_true hbc))
  have htotal (a b : Version × String) : (decide (a.1 ≤ b.1) || decide (b.1 ≤ a.1)) = true := by
    simpa using Version.le_total a.1 b.1
  simp only [lowest?, Option.map_eq_some_iff, find?_mergeSort_eq_some_iff htrans htotal,
    decide_eq_false_iff_not, decide_eq_true_eq]
  constructor
  · rintro ⟨⟨v, php'⟩, hfound, rfl⟩
    exact ⟨v, hfound⟩
  · rintro ⟨v, hv⟩
    exact ⟨(v, php), hv, rfl⟩

theorem lowest?_eq_none_iff : lowest? entries c = none ↔
    ∀ release php v, ¬ Admitted entries c release php v := by
  unfold lowest?
  rw [Option.map_eq_none_iff, List.find?_eq_none]
  constructor
  · intro h release php v hadmitted
    exact h (v, php) (List.mem_mergeSort.mpr (mem_releases.mpr
      ⟨release, hadmitted.listed, hadmitted.reads⟩)) hadmitted.admitted
  · rintro h ⟨v, php⟩ hmem hadmits
    obtain ⟨release, hlisted, hreads⟩ := mem_releases.mp (List.mem_mergeSort.mp hmem)
    exact h release php v ⟨hlisted, hreads, hadmits⟩

theorem IsOrdered.lowest?_eq_some_iff (h : IsOrdered entries) : lowest? entries c = some php ↔
    ∃ release v, IsLowest entries c release php v := by
  rw [CompatibilityTable.lowest?_eq_some_iff]
  constructor
  · rintro ⟨v, hv, releasesFront, releasesBack, hreleases, hfront, hback⟩
    obtain ⟨front, release, back, rfl, hreads, rfl, rfl⟩ := exists_of_releases_eq hreleases
    have hbehind := (List.pairwise_cons.mp (List.pairwise_append.mp h).2.1).1
    -- what stands in front is higher, and what stands behind is not lower
    have hcases {release' php' : String} {v' : Version}
        (ha : Admitted (front ++ (release, php) :: back) c release' php' v') :
        ¬ v' ≤ v ∨ v ≤ v' ∧
          (release' = release ∨ Text.isBefore release.toList release'.toList = true) := by
      obtain ⟨hlisted, hreads', hadmits⟩ := ha
      rcases List.mem_append.mp hlisted with hmem | hmem
      · exact .inl (hfront (v', php') (mem_releases.mpr ⟨release', hmem, hreads'⟩) hadmits)
      · rcases List.mem_cons.mp hmem with heq | hmem
        · cases heq
          rw [hreads] at hreads'
          cases hreads'
          exact .inr ⟨Version.le_refl v, .inl rfl⟩
        · exact .inr ⟨hback (v', php') (mem_releases.mpr ⟨release', hmem, hreads'⟩) hadmits,
            .inr (hbehind _ hmem)⟩
    refine ⟨release, v, ⟨by simp, hreads, hv⟩, ?_, ?_⟩
    · intro release' php' v' ha
      rcases hcases ha with hhigher | ⟨hle, -⟩
      · exact (Version.le_total v v').resolve_right hhigher
      · exact hle
    · intro release' php' v' ha hsame
      rcases hcases ha with hhigher | ⟨-, hfirst⟩
      · exact absurd (Version.same_iff_le.mp hsame).2 hhigher
      · exact hfirst
  · rintro ⟨release, v, ⟨hlisted, hreads, hv⟩, hleast, hfirst⟩
    obtain ⟨front, back, rfl⟩ := List.append_of_mem hlisted
    have hbefore := (List.pairwise_append.mp h).2.2
    refine ⟨v, hv, releases front, releases back, ?_, ?_, ?_⟩
    · rw [releases_append, releases_cons_of_ok hreads]
    · rintro ⟨v', php'⟩ hmem hadmits hle
      obtain ⟨release', hmem', hreads'⟩ := mem_releases.mp hmem
      have ha : Admitted (front ++ (release, php) :: back) c release' php' v' :=
        ⟨List.mem_append_left _ hmem', hreads', hadmits⟩
      have hfront := hbefore (release', php') hmem' (release, php) List.mem_cons_self
      rcases hfirst _ _ _ ha (Version.same_iff_le.mpr ⟨hleast _ _ _ ha, hle⟩) with rfl | hbehind
      · rw [Text.isBefore_self] at hfront
        cases hfront
      · rw [Text.isBefore_asymm hbehind] at hfront
        cases hfront
    · rintro ⟨v', php'⟩ hmem hadmits
      obtain ⟨release', hmem', hreads'⟩ := mem_releases.mp hmem
      exact hleast release' php' v'
        ⟨List.mem_append_right _ (List.mem_cons_of_mem _ hmem'), hreads', hadmits⟩

theorem phpVersion_of_entries {t : CompatibilityTable} {fs : FileSystem}
    (h : t.entries fs = .ok entries) (c : Constraint) :
    t.phpVersion fs c = (lowest? entries c).elim (.error (.noPhpVersion c.text)) .ok := by
  rw [phpVersion, h]
  dsimp only [bind, Except.bind]
  cases lowest? entries c <;> rfl

/-- Sources are checked with the PHP version of the lowest release that the constraint admits; of
equal releases the first by its text counts. There is none exactly when no release of the table is
admitted. Texts in the table that are no releases make no difference. -/
theorem phpVersion_lowest {t : CompatibilityTable} {fs : FileSystem} (c : Constraint)
    (hentries : t.entries fs = .ok entries) (hordered : IsOrdered entries) :
    (∀ php, t.phpVersion fs c = .ok php ↔ ∃ release v, IsLowest entries c release php v) ∧
    (t.phpVersion fs c = .error (.noPhpVersion c.text) ↔
      ∀ release php v, ¬ Admitted entries c release php v) ∧
    ∀ (t' : CompatibilityTable) (fs' : FileSystem) (entries' : List (String × String)),
      t'.entries fs' = .ok entries' → IsOrdered entries' →
      (∀ release v, Version.parse release = .ok v →
        ∀ php, (release, php) ∈ entries' ↔ (release, php) ∈ entries) →
      t'.phpVersion fs' c = t.phpVersion fs c := by
  refine ⟨?_, ?_, ?_⟩
  · intro php
    rw [phpVersion_of_entries hentries, ← hordered.lowest?_eq_some_iff]
    cases lowest? entries c <;> simp
  · rw [phpVersion_of_entries hentries, ← lowest?_eq_none_iff]
    cases lowest? entries c <;> simp
  · intro t' fs' entries' hentries' hordered' hreleases
    have hadmitted (release php : String) (v : Version) :
        Admitted entries' c release php v ↔ Admitted entries c release php v :=
      ⟨fun h => ⟨(hreleases release v h.reads php).mp h.listed, h.reads, h.admitted⟩,
        fun h => ⟨(hreleases release v h.reads php).mpr h.listed, h.reads, h.admitted⟩⟩
    have hlowest (release php : String) (v : Version) :
        IsLowest entries' c release php v ↔ IsLowest entries c release php v := by
      simp only [isLowest_iff, hadmitted]
    rw [phpVersion_of_entries hentries, phpVersion_of_entries hentries']
    congr 1
    refine Option.ext fun php => ?_
    simp only [hordered.lowest?_eq_some_iff, hordered'.lowest?_eq_some_iff, hlowest]

/-- A cached table with two spellings of one release, a candidate, and a text that is no release. -/
def cachedReleases : FileSystem where
  entries :=
    [(["cache".toList], .directory),
      (["cache".toList, cacheFile.toList],
        .file ("\x7b\"trunk\":\"9.0\",\"6.5.0.0\":\"8.2\",\"6.5\":\"8.1\",\"6.10\":\"8.4\"," ++
          "\"6.5.0.0-rc1\":\"7.4\",\"6.9\":\"8.3\"\x7d").toUTF8 false)]
  workingDirectory := []

/-- From `6.5` on, `6.5` is the first of two spellings of the lowest release: the candidate is too
low, and `6.10` is a later one. Without `trunk` the answer is the same. -/
theorem phpVersion_lowest_spellings :
    let t := cached (.ofString "/cache")
    let c : Constraint := ⟨[[.range (.inclusive (.release 6 5 0 0)) .unbounded]], ">=6.5"⟩
    let releases := [("6.10", "8.4"), ("6.5", "8.1"), ("6.5.0.0", "8.2"), ("6.5.0.0-rc1", "7.4"),
      ("6.9", "8.3")]
    let entries := releases ++ [("trunk", "9.0")]
    t.entries cachedReleases = .ok entries ∧ IsOrdered entries ∧
      (∃ v, IsLowest entries c "6.5" "8.1" v) ∧ t.phpVersion cachedReleases c = .ok "8.1" ∧
      (static releases).phpVersion cachedReleases c = t.phpVersion cachedReleases c := by
  intro t c releases entries
  have hentries : t.entries cachedReleases = .ok entries := by
    obtain ⟨found, hfound, heq⟩ := exists_ok_of_any (x := t.entries cachedReleases)
      (p := fun found => decide (found = entries)) (by decide +kernel)
    rw [hfound, of_decide_eq_true heq]
  have hordered : IsOrdered entries := isOrdered_of_cached hentries
  have hphp : t.phpVersion cachedReleases c = .ok "8.1" := by
    have hlowest : lowest? entries c = some "8.1" :=
      lowest?_eq_some_iff.mpr ⟨{ Version.release 6 5 0 0 with spelling := "6.5" }, by decide +kernel,
        (CompatibilityTable.releases entries).take 1, (CompatibilityTable.releases entries).drop 2,
        by decide +kernel, by decide +kernel, by decide +kernel⟩
    rw [phpVersion_of_entries hentries, hlowest]
    rfl
  obtain ⟨hlowest, -, hothers⟩ := phpVersion_lowest c hentries hordered
  refine ⟨hentries, hordered, ?_, hphp, ?_⟩
  · obtain ⟨release, v, h⟩ := (hlowest "8.1").mp hphp
    obtain rfl : release = "6.5" := by simpa [entries, releases] using h.listed
    exact ⟨v, h⟩
  · refine hothers (static releases) cachedReleases releases rfl (by decide) ?_
    intro release v hreads php
    rw [List.mem_append, List.mem_singleton]
    refine ⟨.inl, fun h => h.resolve_right ?_⟩
    rintro ⟨⟩
    cases hreads

end Lowest

end CompatibilityTable

end ExtensionAudit
