import ExtensionAudit.Engine.Validate
import ExtensionAudit.Proofs.Engine.Runs
/-
  What goes into a report. Whoever is handed a report adds findings to it, and which
  ones does not depend on what the report holds and on what its rules leave out; a run
  that is handed one reads, writes and asks the same whatever the report is.

  Main statements: one for each of those that are handed a report, of which
  `Extension.validate_adds`, `Run.lintSources_adds`, `Run.migrateAreas_adds` and
  `Run.examine_eq` are put together from the others.
-/

namespace ExtensionAudit

/-! ## Adding to a report -/

/-- The same findings are added to every report. -/
def Report.Adds (produce : Report → Report) : Prop :=
  ∃ found, ∀ r, produce r = r.addAll found

namespace Report.Adds

variable {produce produce' : Report → Report}

theorem nothing : Adds fun r => r := ⟨[], fun _ => rfl⟩

theorem add (f : Finding) : Adds (·.add f) := ⟨[f], fun _ => rfl⟩

theorem addAll (found : List Finding) : Adds (·.addAll found) := ⟨found, fun _ => rfl⟩

theorem comp (h : Adds produce) (h' : Adds produce') : Adds fun r => produce' (produce r) := by
  obtain ⟨found, hfound⟩ := h
  obtain ⟨more, hmore⟩ := h'
  refine ⟨found ++ more, fun r => ?_⟩
  show produce' (produce r) = _
  rw [hmore, hfound, Report.addAll_append]

theorem ite (b : Bool) (h : Adds produce) (h' : Adds produce') :
    Adds fun r => if b then produce r else produce' r := by
  cases b with
  | true => exact h
  | false => exact h'

theorem foldl {α : Type} {step : Report → α → Report} (h : ∀ a, Adds (step · a)) (as : List α) :
    Adds (as.foldl step ·) := by
  induction as with
  | nil => exact nothing
  | cons a as ih => exact (h a).comp ih

theorem eq_addAll (h : Adds produce) (r : Report) :
    produce r = r.addAll (produce (.withIgnores [])).findings := by
  obtain ⟨found, hfound⟩ := h
  rw [hfound, hfound, Report.addAll_withIgnores_nil]

end Report.Adds

open Report (Adds)

/-! ## The rules of an extension -/

namespace ManifestRule

theorem addWhen_adds (broken : Bool) (identifier message : String) :
    Adds (addWhen broken identifier message) :=
  .ite broken (.add _) .nothing

theorem checkType_adds (m : Manifest) : Adds (checkType m) :=
  .ite _ (.add _) (addWhen_adds _ _ _)

theorem checkRequire_adds (m : Manifest) : Adds (checkRequire m) :=
  .ite _ (.add _) (addWhen_adds _ _ _)

theorem checkLocale_adds (x : Extra) (locale : String) : Adds (checkLocale x · locale) :=
  (((addWhen_adds _ _ _).comp (addWhen_adds _ _ _)).comp (addWhen_adds _ _ _)).comp
    (addWhen_adds _ _ _)

theorem check_adds (m : Manifest) (locales : List String) : Adds (check m locales) :=
  ((((((((addWhen_adds _ _ _).comp (checkType_adds m)).comp (addWhen_adds _ _ _)).comp
    (addWhen_adds _ _ _)).comp (addWhen_adds _ _ _)).comp (addWhen_adds _ _ _)).comp
    (checkRequire_adds m)).comp (.foldl (checkLocale_adds m.extra) locales)).comp
    (addWhen_adds _ _ _)

end ManifestRule

theorem IconRule.check_adds (fs : FileSystem) (root icon : Path) : Adds (check fs root icon) := by
  unfold check
  cases fs.readBytes icon with
  | error kind => exact .add _
  | ok content =>
    have hformat := Adds.ite (isPng content) .nothing (.add (.error (Path.relativeTo root icon)
      "metadata.icon.format"
      ("The extension icon " ++ Path.relativeTo root icon ++ " must be a PNG file")))
    by_cases hsize : content.size ≤ sizeLimit * 1024
    · simp only [if_pos hsize]
      exact hformat
    · simp only [if_neg hsize]
      exact hformat.comp (.add _)

theorem ThemeRule.check_adds (fs : FileSystem) (root : Path) : Adds (check fs root) := by
  unfold check
  cases fs.readText (root.child fileName) with
  | error kind => exact .nothing
  | ok content =>
    dsimp only
    cases Json.parseStrict? content with
    | none => exact .add _
    | some theme =>
      dsimp only
      cases (Json.member? "previewMedia" theme).bind Json.string? with
      | none => exact .nothing
      | some preview => exact .ite _ .nothing (.add _)

namespace Extension

theorem validate_adds (fs : FileSystem) (e : Extension) : Adds (e.validate fs) := by
  cases e with
  | bundle p name => exact .nothing
  | plugin p =>
    have hmanifest := ManifestRule.check_adds p.manifest
      ((Extension.plugin p).requiredLocales?.getD [])
    have htheme := ThemeRule.check_adds fs p.path
    unfold validate
    cases (Extension.plugin p).iconPath? with
    | none => exact hmanifest.comp htheme
    | some icon => exact (hmanifest.comp (IconRule.check_adds fs p.path icon)).comp htheme

theorem validate_eq_addAll (fs : FileSystem) (e : Extension) (r : Report) :
    e.validate fs r = r.addAll (e.findings fs) :=
  (validate_adds fs e).eq_addAll r

end Extension

/-! ## Runs that report -/

namespace Run

/-- Whatever report the run is handed, it finds the same, and adds that. -/
def Adds (run : Report → Run Report) : Prop :=
  ∃ found : Run (List Finding), ∀ r, run r = r.addAll <$> found

namespace Adds

variable {run run' : Report → Run Report}

theorem pure {produce : Report → Report} (h : Report.Adds produce) :
    Adds fun r => Pure.pure (produce r) := by
  obtain ⟨found, hfound⟩ := h
  exact ⟨Pure.pure found, fun r => by simp only [map_pure, hfound]⟩

theorem throw (e : Failure) : Adds fun _ => throw e := ⟨MonadExcept.throw e, fun _ => rfl⟩

theorem comp (h : Adds run) (h' : Adds run') : Adds fun r => run r >>= run' := by
  obtain ⟨found, hfound⟩ := h
  obtain ⟨more, hmore⟩ := h'
  refine ⟨found >>= fun fs => (fs ++ ·) <$> more, fun r => ?_⟩
  simp only [hfound, hmore, bind_map_left, map_bind, Functor.map_map, Report.addAll_append]

/-- What comes before may decide what is reported, as it does not know the report. -/
theorem bind {α : Type} {first : Run α} {run : α → Report → Run Report} (h : ∀ a, Adds (run a)) :
    Adds fun r => first >>= (run · r) := by
  refine ⟨first >>= fun a => (h a).choose, fun r => ?_⟩
  rw [map_bind]
  exact congrArg (first >>= ·) (funext fun a => (h a).choose_spec r)

end Adds

theorem lintDir_adds (l : Linter) (root : Path) (php : String) (dir : Path) :
    Adds (lintDir l root php dir) := by
  refine .bind fun answer => ?_
  cases answer with
  | ok errors => exact .pure (.addAll _)
  | error failure =>
    cases failure
    case cancelled => exact .throw _
    all_goals exact .pure (.add _)

theorem lintDirs_adds (l : Linter) (root : Path) (php : String) (dirs : List Path) :
    Adds (lintDirs l root php · dirs) := by
  induction dirs with
  | nil => exact .pure .nothing
  | cons dir dirs ih =>
    refine .bind fun _ => .bind fun w => ?_
    cases w.fs.isDirectory dir with
    | true => exact (lintDir_adds l root php dir).comp ih
    | false => exact ih

theorem lintSources_adds (s : Setup) (root : Path) (c : Constraint) (dirs : List Path) :
    Adds (lintSources s root c dirs) := by
  unfold lintSources
  cases dirs.isEmpty with
  | true => exact .pure .nothing
  | false =>
    refine .bind fun w => ?_
    cases s.table.phpVersion w.fs c with
    | ok php => exact lintDirs_adds s.linter root php dirs
    | error failure => exact .pure (.add _)

theorem migrateAreas_adds (s : Setup) (root : Path) (v : Version) (mode : Mode)
    (templates : List (Area × List Path)) : ∃ found : Run Outcome, ∀ r fixed,
      migrateAreas s root v mode r fixed templates =
        (fun o => (r.addAll o.findings, fixed ++ o.fixed)) <$> found := by
  induction templates with
  | nil =>
    exact ⟨Pure.pure .empty, fun r fixed => by simp [migrateAreas, Outcome.empty, Report.addAll]⟩
  | cons t templates ih =>
    obtain ⟨found, hfound⟩ := ih
    refine ⟨do
      let files ← reading fun fs => Template.files fs t.2
      let here ← migrate s root t.1 v files mode
      here.append <$> found, fun r fixed => ?_⟩
    rw [migrateAreas]
    simp only [hfound, map_bind, Functor.map_map, Outcome.append, Report.addAll_append,
      List.append_assoc]

end Run

/-- The outcome as a report shows it that had findings and rules before. -/
def Outcome.under (r : Report) (o : Outcome) : Outcome :=
  ⟨(r.addAll o.findings).findings, o.fixed⟩

namespace Run

theorem examine_eq (s : Setup) (root : Path) (c : Constraint) (v : Version) (lint : Bool)
    (sources : List Path) (templates : List (Area × List Path)) (mode : Mode) (r : Report) :
    examine s root c v lint sources templates mode r = Outcome.under r <$>
      examine s root c v lint sources templates mode (.withIgnores []) := by
  obtain ⟨linted, hlinted⟩ : ∃ linted : Run (List Finding), ∀ r : Report,
      (if lint then lintSources s root c sources r else Pure.pure r) = r.addAll <$> linted := by
    cases lint with
    | true => exact lintSources_adds s root c sources
    | false => exact Adds.pure .nothing
  obtain ⟨migrated, hmigrated⟩ := migrateAreas_adds s root v mode templates
  have hrun (r : Report) : examine s root c v lint sources templates mode r =
      linted >>= fun found => migrated >>= fun o =>
        Pure.pure (Outcome.under r ⟨found ++ o.findings, o.fixed⟩) := by
    have hfirst : examine s root c v lint sources templates mode r =
        (if lint then lintSources s root c sources r else Pure.pure r) >>= fun report =>
          migrateAreas s root v mode report [] templates >>= fun migrated =>
            Pure.pure ⟨migrated.1.findings, migrated.2⟩ := by
      unfold examine
      cases lint <;> rfl
    rw [hfirst, hlinted]
    simp only [hmigrated, bind_map_left, Outcome.under, Report.addAll_append, List.nil_append]
  have hempty (o : Outcome) : o.under (.withIgnores []) = o := by
    rw [Outcome.under, Report.addAll_withIgnores_nil]
  rw [hrun, hrun]
  simp only [hempty, map_bind, map_pure]

end Run

end ExtensionAudit
