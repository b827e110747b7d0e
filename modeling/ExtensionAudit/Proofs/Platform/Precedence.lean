import ExtensionAudit.Platform.Resolution
import ExtensionAudit.Proofs.Engine.Runs
import ExtensionAudit.Proofs.Files.Resolving
import ExtensionAudit.Proofs.Platform.KernelConstant
import ExtensionAudit.Proofs.Version.Alternatives
/-
  Precedence among the sources of the platform constraint. The requirement of the
  manifest settles the question alone, well written or not; without one the pinned
  release settles it alone; and that no source says anything is found out only
  when none of them does.

  Main statements: `firstOf_eq_missing_iff`, `resolvePlatform_of_declared`,
  `resolvePlatform_of_pinned`, and `resolvePlatform_precedence`, which compares two
  projects.
-/

namespace ExtensionAudit

namespace Strategy

variable {fs : FileSystem} {c : ResolutionContext} {package : String}

/-- What a requirement says, or why it cannot be read. -/
def ofRequirement (root : Path) (text : String) : Except Failure Constraint :=
  (Constraint.parse text).mapError (.invalidRequirement root (Constraint.textOf text))

/-- The minor series of a pinned release, or why it has none. -/
def ofRelease (root : Path) (version : String) : Except Failure Constraint := do
  let v ← Version.read version
  minorRange root v.major v.minor

theorem ofRequirement_of_ok {root : Path} {text : String} {constraint : Constraint}
    (h : Constraint.parse text = .ok constraint) : ofRequirement root text = .ok constraint := by
  rw [ofRequirement, h, mapError_ok]

theorem ofRequirement_of_error {root : Path} {text : String} {fault : ConstraintFault}
    (h : Constraint.parse text = .error fault) :
    ofRequirement root text = .error (.invalidRequirement root (Constraint.textOf text) fault) := by
  rw [ofRequirement, h, mapError_error]

theorem ofRelease_of_ok {root : Path} {version : String} {v : Version}
    (h : Version.parse version = .ok v) :
    ofRelease root version = minorRange root v.major v.minor := by
  simp only [ofRelease, Version.read, h, mapError_ok, bind, Except.bind]

theorem ofRelease_of_error {root : Path} {version : String} {fault : VersionFault}
    (h : Version.parse version = .error fault) :
    ofRelease root version = .error (.invalidVersion version fault) := by
  simp only [ofRelease, Version.read, h, mapError_error, bind, Except.bind]

/-! ## Each source -/

theorem declared_of_none (h : c.manifest.requirement? platformPackage = none) :
    declared c = .ok none := by
  unfold declared
  rw [h]

theorem declared_of_some {text : String}
    (h : c.manifest.requirement? platformPackage = some text) :
    declared c = (ofRequirement c.root text).map some := by
  unfold declared ofRequirement
  rw [h]
  cases hparse : Constraint.parse text <;> simp [hparse, mapError_ok, mapError_error, Except.map]

theorem declared_eq_none_iff :
    declared c = .ok none ↔ c.manifest.requirement? platformPackage = none := by
  refine ⟨fun h => ?_, declared_of_none⟩
  cases htext : c.manifest.requirement? platformPackage with
  | none => rfl
  | some text =>
    rw [declared_of_some htext] at h
    cases hresult : ofRequirement c.root text <;> simp [hresult, Except.map] at h

theorem locked_of_release {p : LockedPackage}
    (h : c.lock.bind (·.find? platformPackage) = some p)
    (hrelease : Version.isRelease p.version = true) :
    locked c = (ofRelease c.root p.version).map some := by
  unfold locked ofRelease
  simp only [h, hrelease, if_true]
  cases Version.read p.version with
  | error e => rfl
  | ok v => cases hrange : minorRange c.root v.major v.minor <;> simp [hrange, bind, Except.bind,
      pure, Except.pure, Except.map]

theorem locked_eq_none_iff :
    locked c = .ok none ↔
      ∀ p, c.lock.bind (·.find? platformPackage) = some p → Version.isRelease p.version = false := by
  cases h : c.lock.bind (·.find? platformPackage) with
  | none =>
    unfold locked
    simp [h]
  | some p =>
    cases hrelease : Version.isRelease p.version with
    | false =>
      unfold locked
      simp [h, hrelease]
    | true =>
      rw [locked_of_release h hrelease]
      cases ofRelease c.root p.version <;> simp [Except.map, hrelease]

section Kernel

variable {relative : String} {rest : List String} {source? : Option String}

theorem kernelAmong_of_error {kind : IoKind}
    (h : fs.readOptional (c.root.child relative) = .error kind) :
    kernelAmong fs c (relative :: rest) = .error (.io (c.root.child relative) kind) := by
  unfold kernelAmong
  simp only [h]

theorem kernelAmong_of_ok (h : fs.readOptional (c.root.child relative) = .ok source?) :
    kernelAmong fs c (relative :: rest) = (source?.bind Kernel.version?).elim (kernelAmong fs c rest)
      fun found => (minorRange c.root found.1 found.2).map some := by
  conv => lhs; unfold kernelAmong
  simp only [h]
  cases source?.bind Kernel.version? <;> simp only [Option.elim_none, Option.elim_some]

/-- The kernel leaves the question open where each of its files is missing or declares no
version. -/
theorem kernelAmong_eq_none_iff {paths : List String} :
    kernelAmong fs c paths = .ok none ↔
      ∀ relative ∈ paths, ∃ source?, fs.readOptional (c.root.child relative) = .ok source? ∧
        source?.bind Kernel.version? = none := by
  induction paths with
  | nil => exact ⟨fun _ => List.forall_mem_nil _, fun _ => rfl⟩
  | cons relative rest ih =>
    rw [List.forall_mem_cons, ← ih]
    cases hread : fs.readOptional (c.root.child relative) with
    | error kind =>
      rw [kernelAmong_of_error hread]
      constructor
      · exact nofun
      · rintro ⟨⟨_, ⟨⟩, -⟩, -⟩
    | ok source? =>
      cases hversion : source?.bind Kernel.version? with
      | none =>
        rw [kernelAmong_of_ok hread, hversion, Option.elim_none]
        exact ⟨fun h => ⟨⟨source?, rfl, hversion⟩, h⟩, And.right⟩
      | some found =>
        rw [kernelAmong_of_ok hread, hversion, Option.elim_some]
        constructor
        · intro h
          cases hrange : minorRange c.root found.1 found.2 <;> simp [hrange, Except.map] at h
        · rintro ⟨⟨_, ⟨⟩, hnone⟩, -⟩
          exact nomatch hversion.symm.trans hnone

end Kernel

/-! ## No source reports a missing one -/

theorem minorRange_ne_missing {root : Path} {major minor : Nat} :
    minorRange root major minor ≠ .error (.missingDependency package) := by
  unfold minorRange
  exact mapError_ne_error fun _ => nofun

theorem ofRelease_ne_missing {root : Path} {version : String} :
    ofRelease root version ≠ .error (.missingDependency package) := by
  unfold ofRelease Version.read
  exact bind_ne_error (mapError_ne_error fun _ => nofun) fun _ => minorRange_ne_missing

theorem declared_ne_missing : declared c ≠ .error (.missingDependency package) := by
  cases h : c.manifest.requirement? platformPackage with
  | none => simp [declared_of_none h]
  | some text =>
    rw [declared_of_some h]
    exact map_ne_error (mapError_ne_error fun _ => nofun)

theorem locked_ne_missing : locked c ≠ .error (.missingDependency package) := by
  intro hmissing
  have hopen : locked c ≠ .ok none := fun h => nomatch hmissing.symm.trans h
  -- otherwise a release is pinned, and what it says is no such error
  refine hopen (locked_eq_none_iff.mpr fun p hp => Bool.eq_false_iff.mpr fun hrelease => ?_)
  exact map_ne_error ofRelease_ne_missing ((locked_of_release hp hrelease).symm.trans hmissing)

theorem kernelAmong_ne_missing {paths : List String} :
    kernelAmong fs c paths ≠ .error (.missingDependency package) := by
  induction paths with
  | nil => exact nofun
  | cons relative rest ih =>
    cases hread : fs.readOptional (c.root.child relative) with
    | error kind => simp [kernelAmong_of_error hread]
    | ok source? =>
      cases hversion : source?.bind Kernel.version? with
      | none => rwa [kernelAmong_of_ok hread, hversion, Option.elim_none]
      | some found =>
        rw [kernelAmong_of_ok hread, hversion, Option.elim_some]
        exact map_ne_error minorRange_ne_missing

theorem resolve_ne_missing (s : Strategy) :
    s.resolve fs c ≠ .error (.missingDependency package) := by
  cases s with
  | declaredRequirement => exact declared_ne_missing
  | lockedRelease => exact locked_ne_missing
  | kernelSource => exact kernelAmong_ne_missing

/-! ## The sources in turn -/

/-- A source that does not leave the question open settles it, by an answer or by a failure. -/
theorem firstOf_of_settles {s : Strategy} {rest : List Strategy} {x : Except Failure Constraint}
    (h : s.resolve fs c = x.map some) : firstOf fs c (s :: rest) = x := by
  unfold firstOf
  rw [h]
  cases x <;> rfl

theorem firstOf_of_open {s : Strategy} {rest : List Strategy} (h : s.resolve fs c = .ok none) :
    firstOf fs c (s :: rest) = firstOf fs c rest := by
  rw [firstOf, h]

/-- Only when every source leaves the question open is the package reported as missing. -/
theorem firstOf_eq_missing_iff {strategies : List Strategy} :
    firstOf fs c strategies = .error (.missingDependency package) ↔
      package = platformPackage ∧ ∀ s ∈ strategies, s.resolve fs c = .ok none := by
  induction strategies with
  | nil => simp [firstOf, eq_comm]
  | cons s rest ih =>
    rw [List.forall_mem_cons]
    cases hs : s.resolve fs c with
    | error e =>
      have he : e ≠ .missingDependency package := fun heq => resolve_ne_missing s (heq ▸ hs)
      simp [firstOf, hs, he]
    | ok answer =>
      cases answer with
      | some constraint => simp [firstOf, hs]
      | none => simp [firstOf_of_open hs, ih]

end Strategy

/-! ## Projects -/

section Projects

variable {fs : FileSystem} {root : Path} {m : Manifest} {lock : Option LockFile}
  (hmanifest : Manifest.load fs root = .ok m) (hlock : LockFile.load fs root = .ok lock)

include hmanifest hlock

theorem resolvePlatform_of_loads :
    resolvePlatform fs root = Strategy.firstOf fs ⟨root, m, lock⟩ Strategy.chain := by
  unfold resolvePlatform resolveWith
  rw [hmanifest, hlock]
  rfl

/-- A declared requirement settles the question alone. -/
theorem resolvePlatform_of_declared {text : String}
    (h : m.requirement? platformPackage = some text) :
    resolvePlatform fs root = Strategy.ofRequirement root text := by
  rw [resolvePlatform_of_loads hmanifest hlock]
  exact Strategy.firstOf_of_settles (Strategy.declared_of_some h)

/-- Without a requirement a pinned release settles the question alone. -/
theorem resolvePlatform_of_pinned {p : LockedPackage}
    (h : m.requirement? platformPackage = none)
    (hpinned : lock.bind (·.find? platformPackage) = some p)
    (hrelease : Version.isRelease p.version = true) :
    resolvePlatform fs root = Strategy.ofRelease root p.version := by
  have hopen : Strategy.declaredRequirement.resolve fs ⟨root, m, lock⟩ = .ok none :=
    Strategy.declared_of_none h
  rw [resolvePlatform_of_loads hmanifest hlock, Strategy.chain, Strategy.firstOf_of_open hopen]
  exact Strategy.firstOf_of_settles (Strategy.locked_of_release hpinned hrelease)

theorem resolvePlatform_eq_missing_iff {package : String} :
    resolvePlatform fs root = .error (.missingDependency package) ↔
      package = platformPackage ∧ m.requirement? platformPackage = none ∧
      (∀ p, lock.bind (·.find? platformPackage) = some p →
        Version.isRelease p.version = false) ∧
      ∀ relative ∈ Strategy.kernelPaths, ∃ source?,
        fs.readOptional (root.child relative) = .ok source? ∧
        ∀ source, source? = some source → ∀ major minor, ¬Kernel.Declares source major minor := by
  rw [resolvePlatform_of_loads hmanifest hlock, Strategy.firstOf_eq_missing_iff]
  simp only [Strategy.chain, List.forall_mem_cons, List.not_mem_nil, false_implies, implies_true,
    and_true, Strategy.resolve, Strategy.declared_eq_none_iff, Strategy.locked_eq_none_iff,
    Strategy.kernelAmong_eq_none_iff, Option.bind_eq_none_iff, Kernel.version?_eq_none_iff]

end Projects

/-- The sources of the platform constraint come in a strict order, so two projects in the same
place agree as soon as the first source that settles the question is the same in both. Where both
declare a requirement, its own reading is the outcome, the constraint verbatim or the error that
names it, whatever the lock files and the kernels say; where neither declares one and both pin the
same release, its minor series is, whatever the kernels say. The package is reported as missing
exactly when nothing is declared, no release is pinned, and every kernel file is missing or
declares no version. -/
theorem resolvePlatform_precedence {root : Path} {fs₁ fs₂ : FileSystem} {m₁ m₂ : Manifest}
    {lock₁ lock₂ : Option LockFile}
    (hmanifest₁ : Manifest.load fs₁ root = .ok m₁) (hlock₁ : LockFile.load fs₁ root = .ok lock₁)
    (hmanifest₂ : Manifest.load fs₂ root = .ok m₂) (hlock₂ : LockFile.load fs₂ root = .ok lock₂) :
    (∀ text, m₁.requirement? platformPackage = some text →
      m₂.requirement? platformPackage = some text →
      resolvePlatform fs₁ root = resolvePlatform fs₂ root ∧
      (∀ c, Constraint.parse text = .ok c →
        resolvePlatform fs₁ root = .ok c ∧ c.text = Constraint.textOf text) ∧
      (∀ fault, Constraint.parse text = .error fault →
        resolvePlatform fs₁ root =
          .error (.invalidRequirement root (Constraint.textOf text) fault))) ∧
    (∀ p₁ p₂, m₁.requirement? platformPackage = none → m₂.requirement? platformPackage = none →
      lock₁.bind (·.find? platformPackage) = some p₁ →
      lock₂.bind (·.find? platformPackage) = some p₂ → p₁.version = p₂.version →
      Version.isRelease p₁.version = true →
      resolvePlatform fs₁ root = resolvePlatform fs₂ root ∧
      (∀ v, Version.parse p₁.version = .ok v →
        resolvePlatform fs₁ root = Strategy.minorRange root v.major v.minor) ∧
      (∀ fault, Version.parse p₁.version = .error fault →
        resolvePlatform fs₁ root = .error (.invalidVersion p₁.version fault))) ∧
    ∀ package, resolvePlatform fs₁ root = .error (.missingDependency package) ↔
      package = platformPackage ∧ m₁.requirement? platformPackage = none ∧
      (∀ p, lock₁.bind (·.find? platformPackage) = some p →
        Version.isRelease p.version = false) ∧
      ∀ relative ∈ Strategy.kernelPaths, ∃ source?,
        fs₁.readOptional (root.child relative) = .ok source? ∧
        ∀ source, source? = some source →
          ∀ major minor, ¬Kernel.Declares source major minor := by
  refine ⟨fun text h₁ h₂ => ?_, fun p₁ p₂ h₁ h₂ hp₁ hp₂ hsame hrelease => ?_,
    fun package => resolvePlatform_eq_missing_iff hmanifest₁ hlock₁⟩
  · -- what is declared settles it, whatever the rest of either file system holds
    have hfirst := resolvePlatform_of_declared hmanifest₁ hlock₁ h₁
    have hsecond := resolvePlatform_of_declared hmanifest₂ hlock₂ h₂
    rw [hfirst, hsecond]
    exact ⟨rfl, fun c hc => ⟨Strategy.ofRequirement_of_ok hc, (Constraint.parse_eq_ok_iff.mp hc).2⟩,
      fun fault hfault => Strategy.ofRequirement_of_error hfault⟩
  · -- so does the locked release, where nothing is declared
    have hfirst := resolvePlatform_of_pinned hmanifest₁ hlock₁ h₁ hp₁ hrelease
    have hsecond := resolvePlatform_of_pinned hmanifest₂ hlock₂ h₂ hp₂ (hsame ▸ hrelease)
    rw [hfirst, hsecond, hsame]
    exact ⟨rfl, fun v hv => Strategy.ofRelease_of_ok hv,
      fun fault hfault => Strategy.ofRelease_of_error hfault⟩

/-- A shop in `/shop` with these texts as its manifest, its lock file and its kernel. -/
def shopOf (manifest lock kernel : String) : FileSystem where
  entries :=
    [(["shop".toList], .directory),
      (["shop".toList, "composer.json".toList], .file manifest.toUTF8 false),
      (["shop".toList, "composer.lock".toList], .file lock.toUTF8 false),
      (["shop".toList, "src".toList], .directory),
      (["shop".toList, "src".toList, "Core".toList], .directory),
      (["shop".toList, "src".toList, "Core".toList, "Kernel.php".toList],
        .file kernel.toUTF8 false)]
  workingDirectory := ["shop".toList]

/-- A manifest that requires a range, with blanks around it. -/
def requiringManifest : String := "\x7b\"require\":\x7b\"onlishop/core\":\" ^6.6 \"\x7d\x7d"

/-- A lock file that pins a release, for development only. -/
def releaseLock : String :=
  "\x7b\"packages-dev\":[\x7b\"name\":\"onlishop/core\",\"version\":\"v6.4.1-rc1\"\x7d]\x7d"

def branchLock : String :=
  "\x7b\"packages\":[\x7b\"name\":\"onlishop/core\",\"version\":\"dev-trunk\"\x7d]\x7d"

theorem exists_loads_of_any (fs₁ fs₂ : FileSystem) (root : Path)
    (p : Manifest → Option LockFile → Bool)
    (h : [fs₁, fs₂].all (fun fs => (Manifest.load fs root).toOption.any fun m =>
      (LockFile.load fs root).toOption.any (p m)) = true) :
    ∃ m₁ lock₁ m₂ lock₂, Manifest.load fs₁ root = .ok m₁ ∧ LockFile.load fs₁ root = .ok lock₁ ∧
      Manifest.load fs₂ root = .ok m₂ ∧ LockFile.load fs₂ root = .ok lock₂ ∧
      p m₁ lock₁ = true ∧ p m₂ lock₂ = true := by
  simp only [List.all_cons, List.all_nil, Bool.and_true, Bool.and_eq_true] at h
  obtain ⟨m₁, hm₁, h₁⟩ := exists_ok_of_any h.1
  obtain ⟨lock₁, hlock₁, h₁⟩ := exists_ok_of_any h₁
  obtain ⟨m₂, hm₂, h₂⟩ := exists_ok_of_any h.2
  obtain ⟨lock₂, hlock₂, h₂⟩ := exists_ok_of_any h₂
  exact ⟨m₁, lock₁, m₂, lock₂, hm₁, hlock₁, hm₂, hlock₂, h₁, h₂⟩

/-- Two shops that require the same range and differ in all else; two that pin the same release
and differ in their kernels; and one of which a branch is pinned, where the version of the kernel
has no minor number. -/
theorem resolvePlatform_precedence_shops :
    (∃ c, c.text = "^6.6" ∧
      resolvePlatform (shopOf requiringManifest releaseLock "") (.ofString "/shop") = .ok c ∧
      resolvePlatform (shopOf requiringManifest branchLock "ONLISHOP_FALLBACK_VERSION = '6.5.0.0'")
        (.ofString "/shop") = .ok c) ∧
    (∃ c, c.text = "~6.4.0" ∧
      resolvePlatform (shopOf "\x7b\x7d" releaseLock "") (.ofString "/shop") = .ok c ∧
      resolvePlatform (shopOf "\x7b\x7d" releaseLock "ONLISHOP_FALLBACK_VERSION = '6.5.0.0'")
        (.ofString "/shop") = .ok c) ∧
    resolvePlatform (shopOf "\x7b\x7d" branchLock "ONLISHOP_FALLBACK_VERSION = '6.x'")
      (.ofString "/shop") = .error (.missingDependency "onlishop/core") := by
  refine ⟨?requiring, ?pinning, ?neither⟩
  case requiring =>
    obtain ⟨m₁, lock₁, m₂, lock₂, hm₁, hlock₁, hm₂, hlock₂, h₁, h₂⟩ := exists_loads_of_any
      (shopOf requiringManifest releaseLock "")
      (shopOf requiringManifest branchLock "ONLISHOP_FALLBACK_VERSION = '6.5.0.0'")
      (.ofString "/shop")
      (fun m _ => decide (m.requirement? platformPackage = some " ^6.6 ")) (by decide +kernel)
    obtain ⟨c, hparse, -⟩ := exists_ok_of_any (x := Constraint.parse " ^6.6 ")
      (p := fun _ => true) (by decide +kernel)
    obtain ⟨hsame, hok, -⟩ := (resolvePlatform_precedence hm₁ hlock₁ hm₂ hlock₂).1 " ^6.6 "
      (of_decide_eq_true h₁) (of_decide_eq_true h₂)
    obtain ⟨hresult, htext⟩ := hok c hparse
    exact ⟨c, htext.trans (by decide), hresult, hsame.symm.trans hresult⟩
  case pinning =>
    obtain ⟨m₁, lock₁, m₂, lock₂, hm₁, hlock₁, hm₂, hlock₂, h₁, h₂⟩ := exists_loads_of_any
      (shopOf "\x7b\x7d" releaseLock "")
      (shopOf "\x7b\x7d" releaseLock "ONLISHOP_FALLBACK_VERSION = '6.5.0.0'")
      (.ofString "/shop")
      (fun m lock => decide (m.requirement? platformPackage = none ∧
        lock.bind (·.find? platformPackage) = some ⟨"onlishop/core", "v6.4.1-rc1"⟩))
      (by decide +kernel)
    obtain ⟨hnone₁, hpinned₁⟩ := of_decide_eq_true h₁
    obtain ⟨hnone₂, hpinned₂⟩ := of_decide_eq_true h₂
    obtain ⟨v, hversion, hrange⟩ := exists_ok_of_any (x := Version.parse "v6.4.1-rc1")
      (p := fun v => (Strategy.minorRange (.ofString "/shop") v.major v.minor).toOption.any
        (·.text == "~6.4.0")) (by decide +kernel)
    obtain ⟨c, hc, htext⟩ := exists_ok_of_any hrange
    obtain ⟨hsame, hok, -⟩ := (resolvePlatform_precedence hm₁ hlock₁ hm₂ hlock₂).2.1 _ _
      hnone₁ hnone₂ hpinned₁ hpinned₂ rfl (by decide)
    have hresult := (hok v hversion).trans hc
    exact ⟨c, by simpa using htext, hresult, hsame.symm.trans hresult⟩
  case neither =>
    obtain ⟨m, lock, -, -, hm, hlock, -, -, h, -⟩ := exists_loads_of_any
      (shopOf "\x7b\x7d" branchLock "ONLISHOP_FALLBACK_VERSION = '6.x'")
      (shopOf "\x7b\x7d" branchLock "ONLISHOP_FALLBACK_VERSION = '6.x'")
      (.ofString "/shop")
      (fun m lock => decide (m.requirement? platformPackage = none ∧
        lock.bind (·.find? platformPackage) = some ⟨"onlishop/core", "dev-trunk"⟩))
      (by decide +kernel)
    obtain ⟨hnone, hpinned⟩ := of_decide_eq_true h
    refine ((resolvePlatform_precedence hm hlock hm hlock).2.2 "onlishop/core").mpr
      ⟨rfl, hnone, ?_, ?_⟩
    · intro p hp
      obtain rfl := Option.some.inj (hpinned.symm.trans hp)
      decide
    · have hkernels : ∀ relative ∈ Strategy.kernelPaths,
          ((shopOf "\x7b\x7d" branchLock "ONLISHOP_FALLBACK_VERSION = '6.x'").readOptional
            ((Path.ofString "/shop").child relative)).toOption.any
              (fun source? => decide (source?.bind Kernel.version? = none)) = true := by
        decide +kernel
      intro relative hrelative
      obtain ⟨source?, hread, hversion⟩ := exists_ok_of_any (hkernels relative hrelative)
      refine ⟨source?, hread, fun source hsource => Kernel.version?_eq_none_iff.mp ?_⟩
      simpa [hsource] using hversion

end ExtensionAudit
