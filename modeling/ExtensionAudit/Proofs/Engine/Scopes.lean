import ExtensionAudit.Engine.Scope
import ExtensionAudit.Proofs.Engine.Searching
/-
  The scope of a project. A survey is what is read of the project, and its scope is
  made of members: the extensions that are found outside of `vendor`, and the
  bundles that the manifest declares. What is found and cannot be used is broken,
  and every broken extension is a load failure.

  Main statements: `Scope.ofProject_skip` and `Survey.mem_broken`.
-/

namespace ExtensionAudit

open Discovery

/-- What takes part in a run as one: where it comes from, and the directories of its classes. -/
structure Member where
  source : Source
  dirs : List Path
  deriving DecidableEq, Repr

namespace Member

/-- The directories of an area's templates that belong to directories of classes. -/
def templateDirs (fs : FileSystem) (a : Area) (dirs : List Path) : List Path :=
  (dirs.map fun dir => ((dir.child "Resources").child "app").child a.directory).filter
    fs.isDirectory

theorem templateDirs_append (fs : FileSystem) (a : Area) (dirs more : List Path) :
    templateDirs fs a (dirs ++ more) = templateDirs fs a dirs ++ templateDirs fs a more := by
  simp [templateDirs]

/-- The member that a discovered extension is, unless it lies below `vendor`, is left out or has
no name. -/
def ofExtension? (fs : FileSystem) (root : Path) (excluded : List String) (e : Extension) :
    Option Member :=
  match e.name with
  | .error _ => none
  | .ok name =>
    if (Scope.canonicalOr fs e.path).isBelow (root.child "vendor") then none
    else if excluded.contains name then none
    else some ⟨⟨name, e.path⟩, e.sourceDirs⟩

/-- The member that a declared bundle is, unless it is left out. -/
def ofBundle? (root : Path) (excluded : List String) (bundle : String × String) : Option Member :=
  let name := if bundle.2.isEmpty then bundle.1 else bundle.2
  if excluded.contains name then none
  else some ⟨⟨name, root.child bundle.1⟩, [root.child bundle.1]⟩

end Member

/-- The failure of an extension that was loaded and has no name. -/
def nameless? (e : Extension) : Option DiscoveryFailure :=
  match e.name with
  | .ok _ => none
  | .error failure => some ⟨e.path, failure⟩

/-- What is read of a project, from its directory. -/
structure Survey where
  root : Path
  constraint : Constraint
  hasConfig : Bool
  config : ProjectConfig
  /-- the directories in which extensions are looked for -/
  dirs : List Path
  manifest : Manifest
  deriving DecidableEq, Repr

namespace Survey

def ofProject (fs : FileSystem) (root : Path) : Except Failure Survey := do
  let constraint ← resolvePlatform fs root
  let config ← ProjectConfig.load fs root
  let dirs ← searched fs root places
  let manifest ← Manifest.load fs root
  return ⟨root, constraint, fs.isFile (root.child ProjectConfig.fileName), config, dirs, manifest⟩

def discovered (fs : FileSystem) (s : Survey) : List Member :=
  (s.dirs.filterMap (loaded? fs)).filterMap (Member.ofExtension? fs s.root s.config.excluded)

def declared (s : Survey) : List Member :=
  s.manifest.extra.bundles.filterMap (Member.ofBundle? s.root s.config.excluded)

/-- The members of the project, those that are found first. -/
def members (fs : FileSystem) (s : Survey) : List Member := s.discovered fs ++ s.declared

/-- The directories of the members' classes. -/
def sourceDirs (fs : FileSystem) (s : Survey) : List Path := (s.members fs).flatMap (·.dirs)

/-- What cannot be used: what was not loaded, and then what has no name. -/
def broken (fs : FileSystem) (s : Survey) : List DiscoveryFailure :=
  s.dirs.filterMap (failed? fs) ++ (s.dirs.filterMap (loaded? fs)).filterMap nameless?

/-- The finding for a directory that cannot be used. -/
def finding (s : Survey) (f : DiscoveryFailure) : Finding :=
  Scope.loadFailure s.root f.path f.failure

/-- The scope of a survey. -/
def scope (fs : FileSystem) (s : Survey) : Scope where
  root := s.root
  sources := (s.members fs).map (·.source)
  sourceDirs := s.sourceDirs fs
  adminDirs := Member.templateDirs fs .administration (s.sourceDirs fs)
  storefrontDirs := Member.templateDirs fs .storefront (s.sourceDirs fs)
  constraint := s.constraint
  ignores := s.config.ignores
  loadFailures := (s.broken fs).map s.finding
  hasProjectConfig := s.hasConfig

end Survey

/-- A survey is that of a directory, and its directories are the candidates there. -/
theorem Survey.searched_of_ofProject {fs : FileSystem} {root : Path} {s : Survey}
    (h : Survey.ofProject fs root = .ok s) :
    s.root = root ∧ searched fs root places = .ok s.dirs := by
  obtain ⟨constraint, -, h⟩ := bind_eq_ok.mp h
  obtain ⟨config, -, h⟩ := bind_eq_ok.mp h
  obtain ⟨dirs, hdirs, h⟩ := bind_eq_ok.mp h
  obtain ⟨manifest, -, ⟨⟩⟩ := bind_eq_ok.mp h
  exact ⟨rfl, hdirs⟩

/-! ## Taking in members -/

namespace Scope

/-- The scope with more members and load failures. -/
def extend (fs : FileSystem) (s : Scope) (members : List Member) (failures : List Finding) :
    Scope :=
  { s with
    sources := s.sources ++ members.map (·.source)
    sourceDirs := s.sourceDirs ++ members.flatMap (·.dirs)
    adminDirs := s.adminDirs ++
      Member.templateDirs fs .administration (members.flatMap (·.dirs))
    storefrontDirs := s.storefrontDirs ++
      Member.templateDirs fs .storefront (members.flatMap (·.dirs))
    loadFailures := s.loadFailures ++ failures }

variable {fs : FileSystem} {excluded : List String}

theorem extend_nil (fs : FileSystem) (s : Scope) : s.extend fs [] [] = s := by
  simp [extend, Member.templateDirs]

theorem extend_extend (s : Scope) (ms ms' : List Member) (failures failures' : List Finding) :
    (s.extend fs ms failures).extend fs ms' failures' =
      s.extend fs (ms ++ ms') (failures ++ failures') := by
  simp [extend, Member.templateDirs_append]

theorem takeExtension_eq (s : Scope) (e : Extension) :
    takeExtension fs excluded s e =
      s.extend fs (Member.ofExtension? fs s.root excluded e).toList
        ((nameless? e).toList.map fun f => loadFailure s.root f.path f.failure) := by
  unfold takeExtension Member.ofExtension? nameless?
  cases e.name with
  | error failure => simp [extend, Member.templateDirs]
  | ok name =>
    simp only
    split
    · exact (extend_nil fs s).symm
    · split
      · exact (extend_nil fs s).symm
      · simp [extend, addExtension, Member.templateDirs, Extension.templateDirs,
          Extension.resourceDirs]
        exact ⟨rfl, rfl⟩

theorem takeBundle_eq (s : Scope) (bundle : String × String) :
    takeBundle fs excluded s bundle =
      s.extend fs (Member.ofBundle? s.root excluded bundle).toList [] := by
  unfold takeBundle Member.ofBundle?
  dsimp only
  generalize (if bundle.2.isEmpty then bundle.1 else bundle.2) = name
  split
  · exact (extend_nil fs s).symm
  · simp [extend, Member.templateDirs]

theorem foldl_takeExtension (s : Scope) (es : List Extension) :
    es.foldl (takeExtension fs excluded) s =
      s.extend fs (es.filterMap (Member.ofExtension? fs s.root excluded))
        ((es.filterMap nameless?).map fun f => loadFailure s.root f.path f.failure) := by
  induction es generalizing s with
  | nil => exact (extend_nil fs s).symm
  | cons e es ih =>
    rw [List.foldl_cons, ih, takeExtension_eq, extend_extend]
    congr 1
    · cases h : Member.ofExtension? fs s.root excluded e <;> simp [h, extend]
    · cases h : nameless? e <;> simp [h, extend]

theorem foldl_takeBundle (s : Scope) (bundles : List (String × String)) :
    bundles.foldl (takeBundle fs excluded) s =
      s.extend fs (bundles.filterMap (Member.ofBundle? s.root excluded)) [] := by
  induction bundles generalizing s with
  | nil => exact (extend_nil fs s).symm
  | cons bundle bundles ih =>
    rw [List.foldl_cons, ih, takeBundle_eq, extend_extend, List.append_nil]
    congr 1
    cases h : Member.ofBundle? s.root excluded bundle <;> simp [h, extend]

theorem foldl_survey (s : Survey) :
    s.manifest.extra.bundles.foldl (takeBundle fs s.config.excluded)
      ((ofDirectories fs s.dirs).extensions.foldl (takeExtension fs s.config.excluded)
        (start s.root s.constraint s.config.ignores s.hasConfig (ofDirectories fs s.dirs).failures)) =
      s.scope fs := by
  have hfinding : s.finding = fun f => loadFailure s.root f.path f.failure := rfl
  rw [foldl_takeExtension, foldl_takeBundle, extend_extend]
  simp [extend, start, Survey.scope, Survey.members, Survey.sourceDirs, Survey.discovered,
    Survey.declared, Survey.broken, hfinding, ofDirectories]

/-- The scope of a project that passes over what cannot be loaded is the scope of its survey; the
search passes one checkpoint for each directory it looks at. -/
theorem ofProject_skip {root : Path} {scope : Scope} {c c' : Cancellation} :
    (ofProject fs root .skip).runIn c = (.ok scope, c') ↔
      ∃ s, Survey.ofProject fs (canonicalOr fs root) = .ok s ∧
        c.passAll? s.dirs.length = some c' ∧ scope = s.scope fs := by
  unfold ofProject Survey.ofProject
  simp only [Cancellable.runIn_bind_eq_ok, Cancellable.runIn_liftExcept_eq_ok, bind_eq_ok,
    findExtensions_skip, Cancellable.runIn_pure_eq_ok]
  constructor
  · rintro ⟨constraint, _, ⟨hconstraint, rfl⟩, config, _, ⟨hconfig, rfl⟩, _, between,
      ⟨dirs, hdirs, hpass, rfl⟩, manifest, _, ⟨hmanifest, rfl⟩, rfl, rfl⟩
    refine ⟨_, ⟨constraint, hconstraint, config, hconfig, dirs, hdirs, manifest, hmanifest, rfl⟩,
      hpass, ?_⟩
    rw [← foldl_survey]
  · rintro ⟨_, ⟨constraint, hconstraint, config, hconfig, dirs, hdirs, manifest, hmanifest, ⟨⟩⟩,
      hpass, rfl⟩
    refine ⟨constraint, c, ⟨hconstraint, rfl⟩, config, c, ⟨hconfig, rfl⟩, _, c',
      ⟨dirs, hdirs, hpass, rfl⟩, manifest, c', ⟨hmanifest, rfl⟩, ?_, rfl⟩
    rw [← foldl_survey]

end Scope

/-! ## What cannot be used -/

namespace Discovery

/-- Why the package in a directory cannot be used: it is not loaded, though not for being of
another type, or it has no name. -/
def unusable? (fs : FileSystem) (dir : Path) : Option Failure :=
  if hasManifest fs dir then
    match Extension.discover fs dir with
    | .error (.unsupportedType _ _) => none
    | .error failure => some failure
    | .ok e =>
      match e.name with
      | .ok _ => none
      | .error failure => some failure
  else none

end Discovery

namespace Extension

variable {fs : FileSystem} {dir : Path} {e : Extension}

theorem path_of_ofManifest {m : Manifest} {kind : ExtensionKind}
    (h : ofManifest fs dir m kind = .ok e) : e.path = dir := by
  cases kind with
  | plugin =>
    obtain ⟨config, -, ⟨⟩⟩ := bind_eq_ok.mp h
    rfl
  | bundle =>
    simp only [ofManifest, bundleOf] at h
    split at h
    · cases h
    · obtain ⟨config, -, ⟨⟩⟩ := bind_eq_ok.mp h
      rfl

theorem path_of_discover (h : discover fs dir = .ok e) : e.path = dir := by
  obtain ⟨m, -, h⟩ := bind_eq_ok.mp h
  split at h
  · exact path_of_ofManifest h
  · cases h

end Extension

namespace Discovery

variable {fs : FileSystem}

theorem exists_of_loaded? {dir : Path} {e : Extension} (h : loaded? fs dir = some e) :
    hasManifest fs dir = true ∧ Extension.discover fs dir = .ok e := by
  unfold loaded? at h
  split at h
  · rename_i hmanifest
    cases hdiscover : Extension.discover fs dir with
    | error failure =>
      rw [hdiscover] at h
      cases h
    | ok found =>
      rw [hdiscover] at h
      cases h
      exact ⟨hmanifest, rfl⟩
  · cases h

end Discovery

namespace Survey

variable {fs : FileSystem} {s : Survey}

/-- What is not loaded or has no name cannot be used, and there is nothing else. -/
theorem failed_or_nameless {dir : Path} {f : DiscoveryFailure} :
    (failed? fs dir = some f ∨ (loaded? fs dir).bind nameless? = some f) ↔
      f.path = dir ∧ unusable? fs dir = some f.failure := by
  obtain ⟨path, failure⟩ := f
  unfold failed? loaded? unusable?
  cases hasManifest fs dir with
  | false => simp
  | true =>
    cases hdiscover : Extension.discover fs dir with
    | error other => cases other <;> simp [Except.toOption, eq_comm]
    | ok e =>
      have hpath := Extension.path_of_discover hdiscover
      cases hname : e.name with
      | ok name => simp [Except.toOption, nameless?, hname]
      | error other => simp [Except.toOption, nameless?, hname, hpath, eq_comm]

/-- What is broken is what cannot be used, of the directories that are looked at. -/
theorem mem_broken {f : DiscoveryFailure} :
    f ∈ s.broken fs ↔ f.path ∈ s.dirs ∧ unusable? fs f.path = some f.failure := by
  rw [broken, List.mem_append, List.filterMap_filterMap, List.mem_filterMap, List.mem_filterMap]
  constructor
  · rintro (⟨dir, hdir, hfailed⟩ | ⟨dir, hdir, hnameless⟩)
    · obtain ⟨rfl, hunusable⟩ := failed_or_nameless.mp (.inl hfailed)
      exact ⟨hdir, hunusable⟩
    · obtain ⟨rfl, hunusable⟩ := failed_or_nameless.mp (.inr hnameless)
      exact ⟨hdir, hunusable⟩
  · rintro ⟨hdir, hunusable⟩
    rcases failed_or_nameless.mpr ⟨rfl, hunusable⟩ with hfailed | hnameless
    · exact .inl ⟨_, hdir, hfailed⟩
    · exact .inr ⟨_, hdir, hnameless⟩

theorem path_of_ofExtension? {excluded : List String} {root : Path} {e : Extension} {m : Member}
    (h : Member.ofExtension? fs root excluded e = some m) : m.source.path = e.path ∧
      (Scope.canonicalOr fs e.path).isBelow (root.child "vendor") = false := by
  unfold Member.ofExtension? at h
  split at h
  · cases h
  · split at h
    · cases h
    · rename_i hbelow
      split at h
      · cases h
      · cases h
        exact ⟨rfl, by simpa using hbelow⟩

/-- A discovered member is an extension in one of the directories that are looked at. -/
theorem path_of_mem_discovered {m : Member} (h : m ∈ s.discovered fs) :
    m.source.path ∈ s.dirs ∧
      (Scope.canonicalOr fs m.source.path).isBelow (s.root.child "vendor") = false := by
  obtain ⟨e, he, hm⟩ := List.mem_filterMap.mp h
  obtain ⟨dir, hdir, hloaded⟩ := List.mem_filterMap.mp he
  obtain rfl := Extension.path_of_discover (exists_of_loaded? hloaded).2
  obtain ⟨hpath, hbelow⟩ := path_of_ofExtension? hm
  rw [hpath]
  exact ⟨hdir, hbelow⟩

/-- Discovered members are to one another as the directories that they are found in. -/
theorem pairwise_discovered {R : Path → Path → Prop} (h : s.dirs.Pairwise R) :
    (s.discovered fs).Pairwise fun m m' => R m.source.path m'.source.path := by
  have hloaded : (s.dirs.filterMap (loaded? fs)).Pairwise fun e e' => R e.path e'.path := by
    refine h.filterMap _ ?_
    intro dir dir' hR e he e' he'
    rw [Extension.path_of_discover (exists_of_loaded? he).2,
      Extension.path_of_discover (exists_of_loaded? he').2]
    exact hR
  refine hloaded.filterMap _ ?_
  intro e e' hR m hm m' hm'
  rw [(path_of_ofExtension? hm).1, (path_of_ofExtension? hm').1]
  exact hR

end Survey

end ExtensionAudit
