import ExtensionAudit.Proofs.Platform.Precedence
import ExtensionAudit.Proofs.Version.Agreement
/-
  The minor series that the platform constraint is derived from. The range that is
  written for a pair of numbers is read as the versions that begin with these two, their
  pre-releases included, unless there is no next minor number to end it. The pinned
  release gives such a pair, and so does the first kernel file that declares a version;
  nothing else makes these strategies answer, or fail to resolve the platform.

  Main statements: `parse_minorRangeText`, `Derives.resolve_eq` and `resolve_iff_derives`.
-/

namespace ExtensionAudit

/-- Whether a failure is one to resolve the platform version. -/
def Failure.IsResolution : Failure → Prop
  | .invalidRequirement _ _ _ | .unusableRelease _ _ _ => True
  | _ => False

namespace Strategy

variable {fs : FileSystem} {c : ResolutionContext} {root : Path} {major minor : Nat}

/-! ## The range of a series -/

section Range

/-- The operand of the range: the two numbers and a zero. -/
def seriesOperand (major minor : Nat) : Operand := ⟨[major, minor, 0], false, none⟩

theorem contains_seriesOperand (v : Version) :
    (Range.tilde (seriesOperand major minor)).Contains v ↔ v.major = major ∧ v.minor = minor := by
  have hrange : (Range.tilde (seriesOperand major minor)).Contains v ↔
      (seriesOperand major minor).floor ≤ v ∧ [major, minor] <+: v.segments := Iff.rfl
  have hprefix : [major, minor] <+: v.segments ↔ v.major = major ∧ v.minor = minor := by
    simp [Version.segments, eq_comm]
  rw [hrange, hprefix]
  refine and_iff_right_of_imp ?_
  rintro ⟨rfl, rfl⟩
  -- no version with these numbers comes before the floor, of which the third number is zero
  refine Version.not_lt_iff.mp fun hlt => ?_
  have hfloor : (seriesOperand v.major v.minor).floor =
      .ofParts [v.major, v.minor, 0] .dev 0 := rfl
  rw [hfloor, Version.lt_ofParts_iff (by simp)] at hlt
  simp [Version.segments, List.cons_lt_cons_iff] at hlt

variable (hmajor : major < segmentLimit) (hminor : minor < segmentLimit)

include hmajor hminor

theorem written_minorRangeText :
    (Range.tilde (seriesOperand major minor)).Written (minorRangeText major minor).toList := by
  have htext : (minorRangeText major minor).toList =
      '~' :: ([] ++ (Nat.toDigits 10 major ++ Spelling.dottedTail [minor, 0])) := by
    simp [minorRangeText, Spelling.dottedTail]
  have hfits : ∀ n ∈ [major, minor, 0], n < segmentLimit := by
    have hzero : 0 < segmentLimit := by decide
    simp [hmajor, hminor, hzero]
  rw [htext]
  exact .tilde (Operand.parse_numerals (by simp) hfits) (by simp)

/-- The text is read as the constraint that admits the series, pre-releases included. -/
theorem parse_minorRangeText :
    Increments [major, minor] (Constraint.parse (minorRangeText major minor)) fun constraint =>
      ∀ v, constraint.admits v = true ↔ v.major = major ∧ v.minor = minor := by
  have hs : (minorRangeText major minor).toList =
      [] ++ (minorRangeText major minor).toList ++ [] := by simp
  obtain ⟨hfails, hreads⟩ :=
    Constraint.parse_increments (by simp) hs (written_minorRangeText hmajor hminor)
  refine ⟨hfails, fun hlast => ?_⟩
  obtain ⟨constraint, hparse, hadmits⟩ := hreads hlast
  exact ⟨constraint, hparse, fun v => (hadmits v).trans (contains_seriesOperand v)⟩

theorem minorRange_of_eq (h : minor = segmentLimit - 1) :
    minorRange root major minor = .error (.unusableRelease root (minorRangeText major minor)
      (.segmentOutOfRange (toString (segmentLimit - 1)))) := by
  rw [minorRange, (parse_minorRangeText hmajor hminor).1 (by simp [h]), mapError_error]

theorem minorRange_of_ne (h : minor ≠ segmentLimit - 1) :
    ∃ constraint, minorRange root major minor = .ok constraint ∧
      ∀ v, constraint.admits v = true ↔ v.major = major ∧ v.minor = minor := by
  obtain ⟨constraint, hparse, hadmits⟩ := (parse_minorRangeText hmajor hminor).2 (by simp [h])
  exact ⟨constraint, by rw [minorRange, hparse, mapError_ok], hadmits⟩

end Range

/-! ## Where a series comes from -/

/-- The numbers that the first of some kernel files declares. The search goes on behind a file that
is missing or declares none, not behind one that cannot be read. -/
inductive FirstDeclared (fs : FileSystem) (root : Path) : List String → Nat → Nat → Prop
  | here {relative : String} {rest : List String} {source : String} {major minor : Nat}
      (read : fs.readOptional (root.child relative) = .ok (some source))
      (declares : Kernel.Declares source major minor) :
      FirstDeclared fs root (relative :: rest) major minor
  | later {relative : String} {rest : List String} {source? : Option String} {major minor : Nat}
      (read : fs.readOptional (root.child relative) = .ok source?)
      (silent : ∀ source ∈ source?, ∀ major minor, ¬Kernel.Declares source major minor)
      (rest_declared : FirstDeclared fs root rest major minor) :
      FirstDeclared fs root (relative :: rest) major minor

/-- The numbers that a strategy derives its range from: those of the pinned release, or those that
the first kernel file declares. A declared requirement is taken as it is. -/
inductive Derives (fs : FileSystem) (c : ResolutionContext) : Strategy → Nat → Nat → Prop
  | locked {p : LockedPackage} {w : Version}
      (pinned : c.lock.bind (·.find? platformPackage) = some p)
      (read : Version.parse p.version = .ok w) : Derives fs c .lockedRelease w.major w.minor
  | kernel {major minor : Nat} (declared : FirstDeclared fs c.root kernelPaths major minor) :
      Derives fs c .kernelSource major minor

theorem FirstDeclared.lt_limit {paths : List String}
    (h : FirstDeclared fs root paths major minor) :
    major < segmentLimit ∧ minor < segmentLimit := by
  induction h with
  | here read declares =>
    obtain ⟨_, _, -, hmajor, hminor⟩ := declares
    exact ⟨segment?_lt hmajor, segment?_lt hminor⟩
  | later read silent rest_declared ih => exact ih

theorem FirstDeclared.kernelAmong_eq {paths : List String}
    (h : FirstDeclared fs c.root paths major minor) :
    kernelAmong fs c paths = (minorRange c.root major minor).map some := by
  induction h with
  | here read declares =>
    rw [kernelAmong_of_ok read, Option.bind_some, Kernel.version?_eq_some_iff.mpr declares,
      Option.elim_some]
  | @later relative rest source? major minor read silent rest_declared ih =>
    have hnone : source?.bind Kernel.version? = none :=
      Option.bind_eq_none_iff.mpr fun source hsource =>
        Kernel.version?_eq_none_iff.mpr (silent source hsource)
    rw [kernelAmong_of_ok read, hnone, Option.elim_none, ih]

theorem exists_firstDeclared_or (fs : FileSystem) (c : ResolutionContext) (paths : List String) :
    (∃ major minor, FirstDeclared fs c.root paths major minor) ∨
      kernelAmong fs c paths = .ok none ∨
      ∃ path kind, kernelAmong fs c paths = .error (.io path kind) := by
  induction paths with
  | nil => exact .inr (.inl rfl)
  | cons relative rest ih =>
    cases hread : fs.readOptional (c.root.child relative) with
    | error kind => exact .inr (.inr ⟨_, kind, kernelAmong_of_error hread⟩)
    | ok source? =>
      cases hversion : source?.bind Kernel.version? with
      | some found =>
        obtain ⟨source, rfl, hsource⟩ := Option.bind_eq_some_iff.mp hversion
        exact .inl ⟨_, _, .here hread (Kernel.version?_eq_some_iff.mp hsource)⟩
      | none =>
        rw [kernelAmong_of_ok hread, hversion, Option.elim_none]
        refine ih.imp_left ?_
        rintro ⟨major, minor, hdeclared⟩
        refine ⟨major, minor, .later hread (fun source hsource => ?_) hdeclared⟩
        exact Kernel.version?_eq_none_iff.mp (Option.bind_eq_none_iff.mp hversion source hsource)

namespace Derives

variable {s : Strategy}

theorem lt_limit (h : s.Derives fs c major minor) :
    major < segmentLimit ∧ minor < segmentLimit := by
  cases h with
  | locked pinned read =>
    have hfits := Version.lt_limit_of_parse read
    exact ⟨hfits _ (by simp [Version.segments]), hfits _ (by simp [Version.segments])⟩
  | kernel declared => exact declared.lt_limit

/-- A strategy answers with the range of the series it derives. -/
theorem resolve_eq (h : s.Derives fs c major minor) :
    s.resolve fs c = (minorRange c.root major minor).map some := by
  cases h with
  | @locked p w pinned read =>
    obtain ⟨x, -, -, hread, -⟩ := Version.parse_eq_ok_iff.mp read
    have hrelease : Version.isRelease p.version = true := Option.isSome_iff_exists.mpr ⟨x, hread⟩
    rw [resolve, locked_of_release pinned hrelease, ofRelease_of_ok read]
  | kernel declared => exact declared.kernelAmong_eq

theorem resolve_cases (h : s.Derives fs c major minor) :
    (minor = segmentLimit - 1 ∧ ∃ e, s.resolve fs c = .error e ∧ e.IsResolution) ∨
      minor ≠ segmentLimit - 1 ∧ ∃ constraint, s.resolve fs c = .ok (some constraint) ∧
        ∀ v, constraint.admits v = true ↔ v.major = major ∧ v.minor = minor := by
  obtain ⟨hmajor, hminor⟩ := h.lt_limit
  rw [h.resolve_eq]
  by_cases hlast : minor = segmentLimit - 1
  · rw [minorRange_of_eq hmajor hminor hlast]
    exact .inl ⟨hlast, _, rfl, trivial⟩
  · obtain ⟨constraint, hrange, hadmits⟩ := minorRange_of_ne hmajor hminor hlast
    exact .inr ⟨hlast, constraint, by rw [hrange]; rfl, hadmits⟩

end Derives

/-- Apart from a requirement, a strategy that derives no series leaves the question open or fails
for another reason. -/
theorem exists_derives_or {s : Strategy} (hs : s ≠ .declaredRequirement) :
    (∃ major minor, s.Derives fs c major minor) ∨ s.resolve fs c = .ok none ∨
      ∃ e, s.resolve fs c = .error e ∧ ¬e.IsResolution := by
  cases s with
  | declaredRequirement => exact absurd rfl hs
  | kernelSource =>
    rcases exists_firstDeclared_or fs c kernelPaths with ⟨major, minor, hdeclared⟩ | hopen | hfails
    · exact .inl ⟨major, minor, .kernel hdeclared⟩
    · exact .inr (.inl hopen)
    · obtain ⟨path, kind, hfails⟩ := hfails
      exact .inr (.inr ⟨_, hfails, id⟩)
  | lockedRelease =>
    cases hpinned : c.lock.bind (·.find? platformPackage) with
    | none => exact .inr (.inl (locked_eq_none_iff.mpr (by simp [hpinned])))
    | some p =>
      cases hrelease : Version.isRelease p.version with
      | false => exact .inr (.inl (locked_eq_none_iff.mpr (by simpa [hpinned] using hrelease)))
      | true =>
        cases hread : Version.parse p.version with
        | ok w => exact .inl ⟨_, _, .locked hpinned hread⟩
        | error fault =>
          refine .inr (.inr ⟨.invalidVersion p.version fault, ?_, id⟩)
          rw [resolve, locked_of_release hpinned hrelease, ofRelease_of_error hread]
          rfl

/-- The pinned release and the kernel give the constraint that admits the versions of their minor
series and no others. They answer exactly when there is a series with a next one behind it, and fail
to resolve the platform exactly when the minor number of the series is the greatest segment. -/
theorem resolve_iff_derives {s : Strategy} (hs : s ≠ .declaredRequirement) :
    (∀ major minor, s.Derives fs c major minor → ∀ constraint,
      s.resolve fs c = .ok (some constraint) →
        ∀ v, constraint.admits v = true ↔ v.major = major ∧ v.minor = minor) ∧
    ((∃ constraint, s.resolve fs c = .ok (some constraint)) ↔
      ∃ major minor, s.Derives fs c major minor ∧ minor ≠ segmentLimit - 1) ∧
    ((∃ e, s.resolve fs c = .error e ∧ e.IsResolution) ↔
      ∃ major, s.Derives fs c major (segmentLimit - 1)) := by
  refine ⟨fun major minor hderives constraint hresolve => ?_, ⟨?_, ?_⟩, ?_, ?_⟩
  · rcases hderives.resolve_cases with ⟨-, e, herror, -⟩ | ⟨-, constraint', hok, hadmits⟩
    · exact nomatch herror.symm.trans hresolve
    · obtain rfl := Option.some.inj (Except.ok.inj (hok.symm.trans hresolve))
      exact hadmits
  · rintro ⟨constraint, hresolve⟩
    rcases exists_derives_or hs with ⟨major, minor, hderives⟩ | hopen | ⟨e, herror, -⟩
    · rcases hderives.resolve_cases with ⟨-, e, herror, -⟩ | ⟨hminor, -⟩
      · exact nomatch herror.symm.trans hresolve
      · exact ⟨major, minor, hderives, hminor⟩
    · exact nomatch hopen.symm.trans hresolve
    · exact nomatch herror.symm.trans hresolve
  · rintro ⟨major, minor, hderives, hminor⟩
    rcases hderives.resolve_cases with ⟨hlast, -⟩ | ⟨-, constraint, hok, -⟩
    · exact absurd hlast hminor
    · exact ⟨constraint, hok⟩
  · rintro ⟨e, hresolve, he⟩
    rcases exists_derives_or hs with ⟨major, minor, hderives⟩ | hopen | ⟨e', herror, he'⟩
    · rcases hderives.resolve_cases with ⟨rfl, -⟩ | ⟨-, constraint, hok, -⟩
      · exact ⟨major, hderives⟩
      · exact nomatch hok.symm.trans hresolve
    · exact nomatch hopen.symm.trans hresolve
    · obtain rfl := Except.error.inj (herror.symm.trans hresolve)
      exact absurd he he'
  · rintro ⟨major, hderives⟩
    rcases hderives.resolve_cases with ⟨-, hfails⟩ | ⟨hminor, -⟩
    · exact hfails
    · exact absurd rfl hminor

/-- A shop that pins a pre-release, with a kernel file of which the minor number has none behind
it. -/
theorem resolve_iff_derives_shop :
    let fs := shopOf "\x7b\x7d" releaseLock "ONLISHOP_FALLBACK_VERSION = '7.18446744073709551615'"
    ∃ m lock, Manifest.load fs (.ofString "/shop") = .ok m ∧
      LockFile.load fs (.ofString "/shop") = .ok lock ∧
      (∃ w constraint, Version.parse "v6.4.1-rc1" = .ok w ∧
        lockedRelease.resolve fs ⟨.ofString "/shop", m, lock⟩ = .ok (some constraint) ∧
        constraint.admits w = true ∧ constraint.admits (.release 6 5 0 0) = false) ∧
      ∃ e, kernelSource.resolve fs ⟨.ofString "/shop", m, lock⟩ = .error e ∧ e.IsResolution := by
  intro fs
  obtain ⟨m, lock, -, -, hm, hlock, -, -, hpinned, -⟩ := exists_loads_of_any fs fs
    (.ofString "/shop") (fun _ lock => decide
      (lock.bind (·.find? platformPackage) = some ⟨"onlishop/core", "v6.4.1-rc1"⟩))
    (by decide +kernel)
  refine ⟨m, lock, hm, hlock, ?_, ?_⟩
  · obtain ⟨w, hw, hseries⟩ := exists_ok_of_any (x := Version.parse "v6.4.1-rc1")
      (p := fun w => decide (w.major = 6 ∧ w.minor = 4)) (by decide +kernel)
    obtain ⟨hmajor, hminor⟩ := of_decide_eq_true hseries
    have hderives : lockedRelease.Derives fs ⟨.ofString "/shop", m, lock⟩ w.major w.minor :=
      .locked (of_decide_eq_true hpinned) hw
    obtain ⟨hadmits, hanswers, -⟩ :=
      @resolve_iff_derives fs ⟨.ofString "/shop", m, lock⟩ .lockedRelease (by decide)
    obtain ⟨constraint, hconstraint⟩ :=
      hanswers.mpr ⟨_, _, hderives, by rw [hminor]; decide⟩
    refine ⟨w, constraint, hw, hconstraint, ?_, ?_⟩
    · exact (hadmits _ _ hderives constraint hconstraint w).mpr ⟨rfl, rfl⟩
    · rw [← Bool.not_eq_true, hadmits _ _ hderives constraint hconstraint, hmajor, hminor]
      decide
  · obtain ⟨none?, hmissing, hnone⟩ := exists_ok_of_any
      (x := fs.readOptional ((Path.ofString "/shop").child "vendor/onlishop/core/Kernel.php"))
      (p := fun source? => decide (source? = none)) (by decide +kernel)
    obtain ⟨source?, hread, hsome⟩ := exists_ok_of_any
      (x := fs.readOptional ((Path.ofString "/shop").child "src/Core/Kernel.php"))
      (p := fun source? => decide
        (source?.bind Kernel.version? = some (7, segmentLimit - 1))) (by decide +kernel)
    obtain rfl : none? = none := of_decide_eq_true hnone
    obtain ⟨source, rfl, hversion⟩ := Option.bind_eq_some_iff.mp (of_decide_eq_true hsome)
    have hdeclared : FirstDeclared fs (.ofString "/shop") kernelPaths 7 (segmentLimit - 1) :=
      .later hmissing (by simp) (.here hread (Kernel.version?_eq_some_iff.mp hversion))
    exact (resolve_iff_derives (by decide)).2.2.mpr ⟨7, .kernel hdeclared⟩

end Strategy

end ExtensionAudit
