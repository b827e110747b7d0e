import Mathlib.Data.List.Basic
import ExtensionAudit.Proofs.Engine.Scopes
import ExtensionAudit.Proofs.Files.Pruning
/-
  The surroundings of a directory. What is read of a project and of the extensions
  beside `D` is the same with `D` and without it. Where `D` is one of the places
  that are looked at, its surroundings are looked at in the same order, and a `D`
  that cannot be used adds a failure to the survey and nothing else.

  Main statements: `Survey.ofProject_around` and `Survey.scope_around`.
-/

namespace ExtensionAudit

open FileSystem Discovery

/-! ## Extensions -/

theorem Path.Outside.child {D : Location} {dir : Path} (h : dir.Outside D) {name : String}
    (hname : IsEntryName name.toList) : (dir.child name).Beside D :=
  h.join hname.component hname.slash

namespace FileSystem.Prunes

variable {fs fs' old : FileSystem} {D : Location} {dir p : Path}

theorem loadManifest (h : Prunes D old fs fs') (hdir : (dir.child Manifest.fileName).Avoids D) :
    Manifest.load fs' dir = Manifest.load fs dir := by
  unfold Manifest.load
  dsimp only
  rw [h.readText hdir]

theorem loadLockFile (h : Prunes D old fs fs') (hdir : (dir.child LockFile.fileName).Avoids D) :
    LockFile.load fs' dir = LockFile.load fs dir := by
  unfold LockFile.load
  dsimp only
  rw [h.readOptional hdir]

theorem loadOrDefault {α : Type} (h : Prunes D old fs fs') (k : Settings α) (hp : p.Avoids D) :
    k.loadOrDefault fs' p = k.loadOrDefault fs p := by
  unfold Settings.loadOrDefault
  rw [h.readOptional hp]

theorem discover (h : Prunes D old fs fs') (hdir : dir.Outside D) :
    Extension.discover fs' dir = Extension.discover fs dir := by
  have hconfig : ExtensionConfig.load fs' dir = ExtensionConfig.load fs dir :=
    h.loadOrDefault _ (hdir.child (by decide)).avoids
  have hkind (m : Manifest) (kind : ExtensionKind) :
      Extension.ofManifest fs' dir m kind = Extension.ofManifest fs dir m kind := by
    cases kind with
    | bundle => simp only [Extension.ofManifest, Extension.bundleOf, hconfig]
    | plugin => simp only [Extension.ofManifest, Extension.pluginOf, hconfig]
  unfold Extension.discover
  rw [h.loadManifest (hdir.child (by decide)).avoids]
  simp only [hkind]

theorem hasManifest (h : Prunes D old fs fs') (hdir : dir.Outside D) :
    Discovery.hasManifest fs' dir = Discovery.hasManifest fs dir :=
  h.isFile (hdir.child (by decide)).avoids

theorem loaded? (h : Prunes D old fs fs') (hdir : dir.Outside D) :
    Discovery.loaded? fs' dir = Discovery.loaded? fs dir := by
  rw [Discovery.loaded?, h.hasManifest hdir, h.discover hdir, Discovery.loaded?]

theorem failed? (h : Prunes D old fs fs') (hdir : dir.Outside D) :
    Discovery.failed? fs' dir = Discovery.failed? fs dir := by
  rw [Discovery.failed?, h.hasManifest hdir, h.discover hdir, Discovery.failed?]

theorem canonicalOr (h : Prunes D old fs fs') (hp : p.Avoids D) :
    Scope.canonicalOr fs' p = Scope.canonicalOr fs p := by
  rw [Scope.canonicalOr, FileSystem.canonical, h.target hp, Scope.canonicalOr, FileSystem.canonical]

/-- The directories below those outside of `D` are the same without `D`, and outside of it. -/
theorem subdirectoriesOfAll {dirs : List Path} (h : Prunes D old fs fs')
    (hdirs : ∀ dir ∈ dirs, dir.Outside D) :
    Discovery.subdirectoriesOfAll fs' dirs = Discovery.subdirectoriesOfAll fs dirs ∧
      ∀ found, Discovery.subdirectoriesOfAll fs dirs = .ok found →
        ∀ dir ∈ found, dir.Outside D := by
  induction dirs with
  | nil =>
    refine ⟨rfl, ?_⟩
    rintro found ⟨⟩
    simp
  | cons dir dirs ih =>
    obtain ⟨hdir, hdirs⟩ := List.forall_mem_cons.mp hdirs
    obtain ⟨hsame, houtside⟩ := h.subdirectories hdir
    obtain ⟨hrest, hrestOutside⟩ := ih hdirs
    refine ⟨?_, ?_⟩
    · rw [Discovery.subdirectoriesOfAll, hsame, hrest, Discovery.subdirectoriesOfAll]
    · intro found hfound dir hmem
      obtain ⟨here, hhere, hfound⟩ := bind_eq_ok.mp hfound
      obtain ⟨rest, hrest, ⟨⟩⟩ := bind_eq_ok.mp hfound
      rcases List.mem_append.mp hmem with hmem | hmem
      · exact houtside here (mapError_eq_ok.mp hhere) dir hmem
      · exact hrestOutside rest hrest dir hmem

theorem descend {dirs : List Path} (h : Prunes D old fs fs') (depth : Nat)
    (hdirs : ∀ dir ∈ dirs, dir.Outside D) :
    Discovery.descend fs' depth dirs = Discovery.descend fs depth dirs ∧
      ∀ found, Discovery.descend fs depth dirs = .ok found → ∀ dir ∈ found, dir.Outside D := by
  induction depth generalizing dirs with
  | zero =>
    refine ⟨rfl, ?_⟩
    rintro found ⟨⟩
    exact hdirs
  | succ depth ih =>
    obtain ⟨hsame, houtside⟩ := h.subdirectoriesOfAll hdirs
    rw [Discovery.descend, hsame, Discovery.descend]
    cases hfound : Discovery.subdirectoriesOfAll fs dirs with
    | error failure =>
      dsimp only [bind, Except.bind]
      exact ⟨rfl, fun _ => nofun⟩
    | ok found => exact ih (houtside found hfound)

end FileSystem.Prunes

/-! ## The survey of a project -/

namespace Survey

variable {fs : FileSystem} {r : Location} {place : List Text} {name : Text} {s : Survey}
  {failure : Failure}

/-- Files of a project that are not in its directory `custom` are not in an extension there. -/
theorem avoids_child {rest : List Text} (hr : ∀ n ∈ r, IsEntryName n) {relative : String}
    (hrelative : (Path.ofString relative).isAbsolute = false ∧
      (∀ n ∈ (Path.ofString relative).pieces, IsEntryName n) ∧
      ¬["custom".toList] <+: (Path.ofString relative).pieces) :
    ((pathOf r).child relative).Avoids (r ++ "custom".toList :: rest) := by
  obtain ⟨hrelative, hpieces, hcustom⟩ := hrelative
  rw [Path.child, join_pathOf hr hrelative]
  refine Path.avoids_pathOf (List.forall_mem_append.mpr ⟨hr, hpieces⟩) ?_
  rw [List.prefix_append_right_inj]
  exact fun h => hcustom ((List.prefix_append ["custom".toList] rest).trans h)

theorem kernelAmong_prune {D : Location} {old fs' : FileSystem} {c : ResolutionContext}
    {relatives : List String} (h : Prunes D old fs fs')
    (hrelatives : ∀ relative ∈ relatives, (c.root.child relative).Avoids D) :
    Strategy.kernelAmong fs' c relatives = Strategy.kernelAmong fs c relatives := by
  induction relatives with
  | nil => rfl
  | cons relative relatives ih =>
    obtain ⟨hrelative, hrelatives⟩ := List.forall_mem_cons.mp hrelatives
    unfold Strategy.kernelAmong
    dsimp only
    rw [h.readOptional hrelative, ih hrelatives]

theorem resolvePlatform_prune {rest : List Text} {old fs' : FileSystem}
    (h : Prunes (r ++ "custom".toList :: rest) old fs fs') (hr : ∀ n ∈ r, IsEntryName n) :
    resolvePlatform fs' (pathOf r) = resolvePlatform fs (pathOf r) := by
  have hkernel : ∀ relative ∈ Strategy.kernelPaths,
      ((pathOf r).child relative).Avoids (r ++ "custom".toList :: rest) := by
    have hrelatives : ∀ relative ∈ Strategy.kernelPaths,
        (Path.ofString relative).isAbsolute = false ∧
        (∀ n ∈ (Path.ofString relative).pieces, IsEntryName n) ∧
        ¬["custom".toList] <+: (Path.ofString relative).pieces := by decide
    exact fun relative hmem => avoids_child hr (hrelatives relative hmem)
  have hresolve (c : ResolutionContext) (hc : c.root = pathOf r) (strategies : List Strategy) :
      Strategy.firstOf fs' c strategies = Strategy.firstOf fs c strategies := by
    induction strategies with
    | nil => rfl
    | cons strategy strategies ih =>
      have hstrategy : strategy.resolve fs' c = strategy.resolve fs c := by
        cases strategy with
        | kernelSource => exact kernelAmong_prune h (hc ▸ hkernel)
        | _ => rfl
      rw [Strategy.firstOf, hstrategy, ih, Strategy.firstOf]
  unfold resolvePlatform resolveWith
  rw [h.loadManifest (avoids_child hr (by decide)),
    h.loadLockFile (avoids_child hr (by decide))]
  simp only [hresolve]

theorem searched_places_iff {root : Path} {dirs : List Path} :
    searched fs root places = .ok dirs ↔ ∃ plugins statics packages,
      fs.subdirectories (root.child "custom/plugins") = .ok plugins ∧
      fs.subdirectories (root.child "custom/static-plugins") = .ok statics ∧
      candidates fs (root.child "vendor") 2 = .ok packages ∧
      dirs = plugins ++ (statics ++ packages) := by
  have hone {p : Path} {found : List Path} :
      candidates fs p 1 = .ok found ↔ fs.subdirectories p = .ok found := by
    unfold candidates descend subdirectoriesOfAll
    cases fs.subdirectories p with
    | error kind => simp [mapError_error, bind, Except.bind]
    | ok here =>
      simp only [mapError_ok, bind, Except.bind, subdirectoriesOfAll, pure, Except.pure, descend,
        List.append_nil, Except.ok.injEq]
  simp only [places, searched, bind_eq_ok, hone]
  constructor
  · rintro ⟨plugins, hplugins, _, ⟨statics, hstatics, _, ⟨packages, hpackages, _, ⟨⟩, ⟨⟩⟩, ⟨⟩⟩, ⟨⟩⟩
    exact ⟨plugins, statics, packages, hplugins, hstatics, hpackages, by simp⟩
  · rintro ⟨plugins, statics, packages, hplugins, hstatics, hpackages, rfl⟩
    exact ⟨plugins, hplugins, _, ⟨statics, hstatics, _, ⟨packages, hpackages, _, rfl, rfl⟩, rfl⟩,
      by rw [List.append_nil]; rfl⟩

/-- Where a project has its own extensions. -/
def ownDirectories : List (List Text) :=
  [["custom".toList, "plugins".toList], ["custom".toList, "static-plugins".toList]]

/-- A place that is neither in another one nor above it is outside of what is there. -/
theorem outside_place {other : List Text} (hr : ∀ n ∈ r, IsEntryName n)
    (hother : ∀ n ∈ other, IsEntryName n) (hapart : ¬place <+: other ∧ ¬other <+: place) :
    (pathOf (r ++ other)).Outside (r ++ place ++ [name]) := by
  obtain ⟨hin, habove⟩ := hapart
  rw [List.append_assoc]
  refine Path.outside_pathOf (List.forall_mem_append.mpr ⟨hr, hother⟩) ?_ ?_
  · rw [List.prefix_append_right_inj]
    exact fun h => hin ((List.prefix_append place [name]).trans h)
  · rw [List.prefix_append_right_inj]
    exact fun h => (List.prefix_or_prefix_of_prefix h (List.prefix_append place [name])).elim
      habove hin

section Searching

variable {D : Location} (hD : D = r ++ place ++ [name]) (tree : fs.IsTree)
  (links : (fs.prune D).NoLinks) (hr : ∀ n ∈ r, IsEntryName n)

include hD tree links hr

theorem subdirectories_elsewhere {other : List Text} {found : List Path}
    (hother : ∀ n ∈ other, IsEntryName n) (hapart : ¬place <+: other ∧ ¬other <+: place)
    (h : (fs.prune D).subdirectories (pathOf (r ++ other)) = .ok found) :
    fs.subdirectories (pathOf (r ++ other)) = .ok found ∧ ∀ dir ∈ found, dir.Outside D := by
  obtain ⟨hsame, hout⟩ :=
    (prunes_self tree links).subdirectories (hD ▸ outside_place hr hother hapart)
  rw [hsame] at h
  exact ⟨h, hout found h⟩

theorem packages_elsewhere {packages : List Path} (hplace : place ∈ ownDirectories)
    (h : candidates (fs.prune D) ((pathOf r).child "vendor") 2 = .ok packages) :
    candidates fs ((pathOf r).child "vendor") 2 = .ok packages ∧
      ∀ dir ∈ packages, dir.Outside D := by
  have hapart : ∀ place ∈ ownDirectories, ¬place <+: ["vendor".toList] ∧
      ¬["vendor".toList] <+: place := by decide
  have hvendor : (pathOf r).child "vendor" = pathOf (r ++ ["vendor".toList]) :=
    join_pathOf_name hr (by decide)
  have hout : ((pathOf r).child "vendor").Outside D := by
    rw [hvendor, hD]
    exact outside_place hr (by decide) (hapart place hplace)
  have houtAll : ∀ dir ∈ [(pathOf r).child "vendor"], dir.Outside D := by simpa using hout
  obtain ⟨hsame, houtside⟩ := (prunes_self tree links).descend 2 houtAll
  have hpackages := hsame.symm.trans h
  exact ⟨hpackages, houtside packages hpackages⟩

/-- A directory among a project's own extensions is looked at between those around it. -/
theorem searched_around {dirs : List Path} (hplace : place ∈ ownDirectories)
    (tree' : (fs.prune D).IsTree) (hthere : fs.get? D = some .directory)
    (hsize : nameSize (pathOf D).text ≤ pathLimit)
    (h : searched (fs.prune D) (pathOf r) places = .ok dirs) :
    ∃ front back, dirs = front ++ back ∧
      searched fs (pathOf r) places = .ok (front ++ pathOf D :: back) ∧
      ∀ dir ∈ dirs, dir.Outside D := by
  have hchild {relative : String} (hrelative : (Path.ofString relative).isAbsolute = false) :
      (pathOf r).child relative = pathOf (r ++ (Path.ofString relative).pieces) :=
    join_pathOf hr hrelative
  have hplugins : (pathOf r).child "custom/plugins" =
      pathOf (r ++ ["custom".toList, "plugins".toList]) := hchild (by decide)
  have hstatics : (pathOf r).child "custom/static-plugins" =
      pathOf (r ++ ["custom".toList, "static-plugins".toList]) := hchild (by decide)
  obtain ⟨plugins, statics, packages, hps, hss, hvs, rfl⟩ := searched_places_iff.mp h
  rw [hplugins] at hps
  rw [hstatics] at hss
  obtain ⟨hvs, hpackagesOut⟩ := packages_elsewhere hD tree links hr hplace hvs
  -- only in its own directory the new one is a further entry
  obtain ⟨front, back, hin, hin', hout⟩ :
      ∃ front back, fs.subdirectories (pathOf (r ++ place)) = .ok (front ++ pathOf D :: back) ∧
        (fs.prune D).subdirectories (pathOf (r ++ place)) = .ok (front ++ back) ∧
        ∀ dir ∈ front ++ back, dir.Outside D := by
    subst hD
    exact subdirectories_prune tree tree' links hthere hsize
  rcases List.mem_cons.mp hplace with rfl | hplace
  · -- in front of the static ones
    obtain ⟨hss, hstaticsOut⟩ :=
      subdirectories_elsewhere hD tree links hr (by decide) (by decide) hss
    obtain rfl : plugins = front ++ back := Except.ok.inj (hps.symm.trans hin')
    refine ⟨front, back ++ (statics ++ packages), by simp, ?_, ?_⟩
    · refine searched_places_iff.mpr
        ⟨front ++ pathOf D :: back, statics, packages, ?_, ?_, hvs, by simp⟩
      · rw [hplugins, hin]
      · rw [hstatics, hss]
    · exact List.forall_mem_append.mpr
        ⟨hout, List.forall_mem_append.mpr ⟨hstaticsOut, hpackagesOut⟩⟩
  · -- among the static ones
    obtain rfl := List.mem_singleton.mp hplace
    obtain ⟨hps, hpluginsOut⟩ :=
      subdirectories_elsewhere hD tree links hr (by decide) (by decide) hps
    obtain rfl : statics = front ++ back := Except.ok.inj (hss.symm.trans hin')
    refine ⟨plugins ++ front, back ++ packages, by simp, ?_, ?_⟩
    · refine searched_places_iff.mpr
        ⟨plugins, front ++ pathOf D :: back, packages, ?_, ?_, hvs, by simp⟩
      · rw [hplugins, hps]
      · rw [hstatics, hin]
    · exact List.forall_mem_append.mpr
        ⟨hpluginsOut, List.forall_mem_append.mpr ⟨hout, hpackagesOut⟩⟩

end Searching

/-- The survey of a project with one more directory among its own extensions. -/
theorem ofProject_around {D : Location} (hD : D = r ++ place ++ [name])
    (hplace : place ∈ ownDirectories) (tree : fs.IsTree) (tree' : (fs.prune D).IsTree)
    (links : (fs.prune D).NoLinks) (hthere : fs.get? D = some .directory)
    (hsize : nameSize (pathOf D).text ≤ pathLimit)
    (h : Survey.ofProject (fs.prune D) (pathOf r) = .ok s) :
    ∃ front back, s.dirs = front ++ back ∧
      Survey.ofProject fs (pathOf r) = .ok { s with dirs := front ++ pathOf D :: back } ∧
      ∀ dir ∈ s.dirs, dir.Outside D := by
  have hprunes := prunes_self tree links
  have hr : ∀ n ∈ r, IsEntryName n := fun n hn =>
    tree.names_of_get? hthere n (by simp [hD, hn])
  obtain ⟨rest, hrest⟩ : ∃ rest, D = r ++ "custom".toList :: rest := by
    rcases List.mem_cons.mp hplace with rfl | hplace
    · exact ⟨_, by rw [hD, List.append_assoc]; rfl⟩
    · obtain rfl := List.mem_singleton.mp hplace
      exact ⟨_, by rw [hD, List.append_assoc]; rfl⟩
  -- nothing else that is read below the root lies in `custom`
  have hchild {relative : String} (hrelative : (Path.ofString relative).isAbsolute = false ∧
      (∀ n ∈ (Path.ofString relative).pieces, IsEntryName n) ∧
      ¬["custom".toList] <+: (Path.ofString relative).pieces) :
      ((pathOf r).child relative).Avoids D := hrest ▸ avoids_child hr hrelative
  obtain ⟨constraint, hconstraint, h⟩ := bind_eq_ok.mp h
  obtain ⟨config, hconfig, h⟩ := bind_eq_ok.mp h
  obtain ⟨dirs, hdirs, h⟩ := bind_eq_ok.mp h
  obtain ⟨manifest, hmanifest, h⟩ := bind_eq_ok.mp h
  obtain ⟨front, back, rfl, hsearched, hout⟩ :=
    searched_around hD tree links hr hplace tree' hthere hsize hdirs
  have hplatform : resolvePlatform (fs.prune D) (pathOf r) = resolvePlatform fs (pathOf r) := by
    subst hrest
    exact resolvePlatform_prune hprunes hr
  rw [hplatform] at hconstraint
  rw [ProjectConfig.load, hprunes.loadOrDefault _ (hchild (by decide))] at hconfig
  rw [hprunes.loadManifest (hchild (by decide))] at hmanifest
  rw [hprunes.isFile (hchild (by decide))] at h
  cases h
  refine ⟨front, back, rfl, ?_, hout⟩
  unfold Survey.ofProject
  rw [hconstraint, ProjectConfig.load, hconfig, hsearched, hmanifest]
  rfl

/-! ## Members and failures -/

/-- What cannot be used was not loaded, or was loaded and has no name; in either case it is no
member. -/
theorem unusable_cases {dir : Path} (h : unusable? fs dir = some failure) :
    (failed? fs dir = some ⟨dir, failure⟩ ∧ loaded? fs dir = none) ∨
      failed? fs dir = none ∧ ∃ e, loaded? fs dir = some e ∧
        nameless? e = some ⟨dir, failure⟩ ∧
        ∀ root excluded, Member.ofExtension? fs root excluded e = none := by
  rcases (failed_or_nameless (f := ⟨dir, failure⟩)).mpr ⟨rfl, h⟩ with hfailed | hnameless
  · refine .inl ⟨hfailed, ?_⟩
    unfold failed? at hfailed
    unfold loaded?
    cases hmanifest : hasManifest fs dir with
    | false => rfl
    | true =>
      rw [hmanifest, if_pos rfl] at hfailed
      cases hdiscover : Extension.discover fs dir with
      | error other => rfl
      | ok e =>
        rw [hdiscover] at hfailed
        cases hfailed
  · obtain ⟨e, hloaded, hnameless⟩ := Option.bind_eq_some_iff.mp hnameless
    obtain ⟨hmanifest, hdiscover⟩ := exists_of_loaded? hloaded
    refine .inr ⟨?_, e, hloaded, hnameless, ?_⟩
    · rw [failed?, hmanifest, if_pos rfl, hdiscover]
    · intro root excluded
      unfold nameless? at hnameless
      unfold Member.ofExtension?
      cases hname : e.name with
      | ok name =>
        rw [hname] at hnameless
        cases hnameless
      | error other => rfl

section Around

variable {old : FileSystem} {D : Location} {dir : Path} {front back : List Path}
  (h : Prunes D old fs (fs.prune D)) (hdirs : s.dirs = front ++ back)
  (hout : ∀ dir ∈ s.dirs, dir.Outside D) (hunusable : unusable? fs dir = some failure)

include h hdirs hout hunusable

theorem broken_around : ∃ before after, s.broken (fs.prune D) = before ++ after ∧
    broken fs { s with dirs := front ++ dir :: back } = before ++ ⟨dir, failure⟩ :: after := by
  have hloaded : s.dirs.filterMap (loaded? (fs.prune D)) = s.dirs.filterMap (loaded? fs) :=
    List.filterMap_congr fun p hp => h.loaded? (hout p hp)
  have hfailed : s.dirs.filterMap (failed? (fs.prune D)) = s.dirs.filterMap (failed? fs) :=
    List.filterMap_congr fun p hp => h.failed? (hout p hp)
  unfold broken
  rw [hloaded, hfailed, hdirs]
  simp only [List.filterMap_append, List.filterMap_cons]
  rcases unusable_cases hunusable with ⟨hdir, hnone⟩ | ⟨hnone, e, hdir, hnameless, -⟩
  · rw [hdir, hnone]
    exact ⟨front.filterMap (failed? fs), back.filterMap (failed? fs) ++
      ((front.filterMap (loaded? fs)).filterMap nameless? ++
        (back.filterMap (loaded? fs)).filterMap nameless?), by simp, by simp⟩
  · rw [hdir, hnone]
    simp only [List.filterMap_cons, hnameless]
    exact ⟨front.filterMap (failed? fs) ++ back.filterMap (failed? fs) ++
        (front.filterMap (loaded? fs)).filterMap nameless?,
      (back.filterMap (loaded? fs)).filterMap nameless?, by simp, by simp⟩

theorem members_around :
    members fs { s with dirs := front ++ dir :: back } = s.members (fs.prune D) := by
  have hloaded : s.dirs.filterMap (loaded? (fs.prune D)) = s.dirs.filterMap (loaded? fs) :=
    List.filterMap_congr fun p hp => h.loaded? (hout p hp)
  -- an extension is at the path that it was loaded by
  have hmember : (s.dirs.filterMap (loaded? fs)).filterMap
        (Member.ofExtension? (fs.prune D) s.root s.config.excluded) =
      (s.dirs.filterMap (loaded? fs)).filterMap
        (Member.ofExtension? fs s.root s.config.excluded) := by
    apply List.filterMap_congr
    intro e he
    obtain ⟨p, hp, hload⟩ := List.mem_filterMap.mp he
    have hpath := Extension.path_of_discover (exists_of_loaded? hload).2
    have hcanonical : Scope.canonicalOr (fs.prune D) e.path = Scope.canonicalOr fs e.path :=
      h.canonicalOr (hpath ▸ (hout p hp).toAvoids)
    rw [Member.ofExtension?, hcanonical, Member.ofExtension?]
  unfold members discovered declared
  rw [hloaded, hmember, hdirs]
  simp only [List.filterMap_append, List.filterMap_cons]
  rcases unusable_cases hunusable with ⟨-, hnone⟩ | ⟨-, e, hdir, -, hmember⟩
  · rw [hnone]
  · rw [hdir]
    simp only [List.filterMap_cons, hmember]

end Around

/-! ## The scope -/

theorem isAbsolute_of_mem_sourceDirs {dir : Path} (hroot : s.root.isAbsolute = true)
    (hdirs : ∀ dir ∈ s.dirs, dir.isAbsolute = true) (h : dir ∈ s.sourceDirs fs) :
    dir.isAbsolute = true := by
  obtain ⟨m, hm, hdir⟩ := List.mem_flatMap.mp h
  -- a member is an extension with its own directories, or a bundle with the one it is declared for
  rcases List.mem_append.mp hm with hm | hm
  · obtain ⟨e, he, hm⟩ := List.mem_filterMap.mp hm
    obtain ⟨p, hp, hload⟩ := List.mem_filterMap.mp he
    have hpath := Extension.path_of_discover (exists_of_loaded? hload).2
    have hdirsEq : m.dirs = e.sourceDirs := by
      unfold Member.ofExtension? at hm
      split at hm
      · cases hm
      · split at hm
        · cases hm
        · split at hm
          · cases hm
          · cases hm
            rfl
    rw [hdirsEq] at hdir
    obtain ⟨autoload, -, rfl⟩ := List.mem_map.mp hdir
    have habsolute : e.path.isAbsolute = true := by
      rw [hpath]
      exact hdirs p hp
    exact Path.isAbsolute_join habsolute _
  · obtain ⟨bundle, -, hm⟩ := List.mem_filterMap.mp hm
    have hdirsEq : m.dirs = [s.root.child bundle.1] := by
      unfold Member.ofBundle? at hm
      dsimp only at hm
      generalize (if bundle.2.isEmpty then bundle.1 else bundle.2) = name at hm
      split at hm
      · cases hm
      · cases hm
        rfl
    rw [hdirsEq] at hdir
    obtain rfl := List.mem_singleton.mp hdir
    exact Path.isAbsolute_join hroot _

/-- The templates of directories apart from `D` are the same without `D`, and beside it. -/
theorem templateDirs_around {old : FileSystem} {D : Location} {dirs : List Path} (a : Area)
    (h : Prunes D old fs (fs.prune D)) (habsolute : ∀ dir ∈ dirs, dir.isAbsolute = true)
    (hapart : ∀ dir ∈ dirs, Apart D fs dir) :
    Member.templateDirs (fs.prune D) a dirs = Member.templateDirs fs a dirs ∧
      ∀ t ∈ Member.templateDirs fs a dirs, t.Beside D := by
  have harea : IsEntryName a.directory.toList := by cases a <;> decide
  have hbeside {dir : Path} (hdir : dir.Outside D) :
      (((dir.child "Resources").child "app").child a.directory).Beside D :=
    (((hdir.child (by decide)).outside.child (by decide)).outside.child harea)
  -- there are no templates where there is no directory for them
  have hmissing {fs : FileSystem} {dir : Path} (hdir : dir.isAbsolute = true)
      (h : fs.isDirectory (((dir.child "Resources").child "app").child a.directory) = true) :
      fs.isDirectory dir = true := by
    have hresources : (dir.child "Resources").isAbsolute = true := Path.isAbsolute_join hdir _
    have happ := isDirectory_of_isDirectory_join (Path.isAbsolute_join hresources _)
      (Path.isAbsolute_of_slash_not_mem harea.slash) h
    exact isDirectory_of_isDirectory_join hdir (by decide)
      (isDirectory_of_isDirectory_join hresources (by decide) happ)
  refine ⟨?_, ?_⟩
  · apply List.filter_congr
    intro t ht
    obtain ⟨dir, hdir, rfl⟩ := List.mem_map.mp ht
    rcases hapart dir hdir with hout | ⟨hno, hno'⟩
    · exact h.isDirectory (hbeside hout).avoids
    · rw [Bool.eq_iff_iff]
      constructor
      · intro hthere
        rw [hmissing (habsolute dir hdir) hthere] at hno'
        cases hno'
      · intro hthere
        rw [hmissing (habsolute dir hdir) hthere] at hno
        cases hno
  · intro t ht
    obtain ⟨ht, hthere⟩ := List.mem_filter.mp ht
    obtain ⟨dir, hdir, rfl⟩ := List.mem_map.mp ht
    rcases hapart dir hdir with hout | ⟨hno, -⟩
    · exact hbeside hout
    · rw [hmissing (habsolute dir hdir) hthere] at hno
      cases hno

/-- A directory that cannot be used adds a failure to the scope, between those around it. -/
theorem scope_around {old : FileSystem} {D : Location} {dir : Path} {front back : List Path}
    (h : Prunes D old fs (fs.prune D)) (hdirs : s.dirs = front ++ back)
    (hout : ∀ dir ∈ s.dirs, dir.Outside D) (hunusable : unusable? fs dir = some failure)
    (hroot : s.root.isAbsolute = true)
    (hapart : ∀ dir ∈ s.sourceDirs (fs.prune D), Apart D fs dir) :
    ∃ before after, (s.scope (fs.prune D)).loadFailures = before ++ after ∧
      scope fs { s with dirs := front ++ dir :: back } =
        { s.scope (fs.prune D) with
          loadFailures := before ++ Scope.loadFailure s.root dir failure :: after } := by
  obtain ⟨before, after, hbefore, hafter⟩ := broken_around h hdirs hout hunusable
  have hmembers := members_around h hdirs hout hunusable
  have hsources : sourceDirs fs { s with dirs := front ++ dir :: back } =
      s.sourceDirs (fs.prune D) := by
    rw [sourceDirs, hmembers, sourceDirs]
  have htemplates (a : Area) : Member.templateDirs fs a (s.sourceDirs (fs.prune D)) =
      Member.templateDirs (fs.prune D) a (s.sourceDirs (fs.prune D)) :=
    (templateDirs_around a h (fun p hp => isAbsolute_of_mem_sourceDirs hroot
      (fun q hq => (hout q hq).absolute) hp) hapart).1.symm
  refine ⟨before.map s.finding, after.map s.finding, ?_, ?_⟩
  · rw [scope, hbefore, List.map_append]
  · rw [scope, hsources, hmembers, hafter, htemplates, htemplates, List.map_append, List.map_cons]
    rfl

end Survey

end ExtensionAudit
