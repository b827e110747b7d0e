import ExtensionAudit.Proofs.Engine.Scopes
/-
  Where the members of a project are. In a tree the extensions that are found have
  distinct paths, so that two of them are one directory only where a path leads
  over a link. Without links nothing that takes part lies below `vendor`; what lies
  there and cannot be used is a load failure all the same.

  Main statements: `Scope.discovered_apart` and `Scope.ofProject_vendor`.
-/

namespace ExtensionAudit

open FileSystem Discovery

namespace Scope

variable {fs : FileSystem} {root : Path} {r : Location} {scope : Scope} {c c' : Cancellation}
  {s : Survey} {dirs : List Path}

/-! ## The directories that are looked at -/

theorem canonicalOr_of_isDirectory (tree : fs.IsTree) (hroot : fs.isDirectory root = true) :
    ∃ r, fs.target root = .ok (r, .directory) ∧ canonicalOr fs root = pathOf r ∧
      ∀ n ∈ r, IsEntryName n := by
  obtain ⟨r, hr⟩ := isDirectory_iff.mp hroot
  have htarget := target_eq_ok_iff.mpr hr
  refine ⟨r, htarget, ?_, tree.names_of_get? (tree.get?_of_target htarget)⟩
  rw [canonicalOr, canonical, htarget]
  rfl

theorem canonicalOr_pathOf {k : Location} (tree : fs.IsTree) (links : fs.NoLinks)
    (hk : ∀ n ∈ k, IsEntryName n) (hdir : fs.isDirectory (pathOf k) = true) :
    canonicalOr fs (pathOf k) = pathOf k := by
  obtain ⟨l, htarget, heq, -⟩ := canonicalOr_of_isDirectory tree hdir
  obtain ⟨rfl, -, -⟩ := (tree.target_pathOf_iff links hk).mp htarget
  exact heq

theorem pathOf_injective {l k : Location} (hl : ∀ n ∈ l, IsEntryName n)
    (hk : ∀ n ∈ k, IsEntryName n) (h : pathOf l = pathOf k) : l = k := by
  have hlk := (isBelow_pathOf hk hl).mp (h ▸ (isBelow_pathOf hl hl).mpr List.prefix_rfl)
  have hkl := (isBelow_pathOf hl hk).mp (h ▸ (isBelow_pathOf hk hk).mpr List.prefix_rfl)
  exact hlk.eq_of_length_le hkl.length_le

/-- The places for a project's own extensions. -/
def ownPlaces : List (String × Nat) := [("custom/plugins", 1), ("custom/static-plugins", 1)]

theorem searched_places (h : searched fs root places = .ok dirs) :
    ∃ own packages, searched fs root ownPlaces = .ok own ∧
      candidates fs (root.child "vendor") 2 = .ok packages ∧ dirs = own ++ packages := by
  obtain ⟨plugins, hplugins, h⟩ := bind_eq_ok.mp h
  obtain ⟨behind, hbehind, ⟨⟩⟩ := bind_eq_ok.mp h
  obtain ⟨statics, hstatics, hbehind⟩ := bind_eq_ok.mp hbehind
  obtain ⟨last, hlast, ⟨⟩⟩ := bind_eq_ok.mp hbehind
  obtain ⟨packages, hpackages, hlast⟩ := bind_eq_ok.mp hlast
  obtain ⟨_, ⟨⟩, ⟨⟩⟩ := bind_eq_ok.mp hlast
  refine ⟨plugins ++ (statics ++ []), packages, ?_, hpackages, by simp⟩
  simp only [ownPlaces, searched, hplugins, hstatics]
  rfl

theorem places_locations (tree : fs.IsTree) (hr : ∀ n ∈ r, IsEntryName n)
    (h : searched fs (pathOf r) places = .ok dirs) :
    ∃ ks : List Location, dirs = ks.map pathOf ∧ ks.Nodup ∧
      ∀ k ∈ ks, (∀ n ∈ k, IsEntryName n) ∧ fs.isDirectory (pathOf k) = true := by
  obtain ⟨ks, rfl, hplaced⟩ := searched_locations tree hr (by decide) h
  obtain ⟨hnodup, -⟩ := nodup_searched tree (by decide) (by decide) h
  rw [List.map_map] at hnodup
  refine ⟨ks, rfl, ?_, fun k hk => (hplaced k hk).2⟩
  exact (List.pairwise_map.mp hnodup).imp fun hne heq => hne (congrArg _ heq)

theorem isBelow_vendor {own packages : List Path} (tree : fs.IsTree) (hr : ∀ n ∈ r, IsEntryName n)
    (hown : searched fs (pathOf r) ownPlaces = .ok own)
    (hpackages : candidates fs ((pathOf r).child "vendor") 2 = .ok packages) :
    (∀ dir ∈ own, dir.isBelow ((pathOf r).child "vendor") = false) ∧
      ∀ dir ∈ packages, dir.isBelow ((pathOf r).child "vendor") = true := by
  have hvendor : (pathOf r).child "vendor" = pathOf (r ++ ["vendor".toList]) :=
    join_pathOf_name hr (by decide)
  have hnames : ∀ n ∈ r ++ ["vendor".toList], IsEntryName n := IsEntryName.concat (by decide) hr
  constructor
  · obtain ⟨ks, rfl, hplaced⟩ := searched_locations tree hr (by decide) hown
    intro dir hdir
    obtain ⟨k, hk, rfl⟩ := List.mem_map.mp hdir
    obtain ⟨⟨place, hplace, hbelow⟩, hentries, -⟩ := hplaced k hk
    rw [hvendor, Bool.eq_false_iff, ne_eq, isBelow_pathOf hentries hnames]
    intro hin
    have hapart : ∀ place ∈ ownPlaces, ¬(Path.ofString place.1).pieces <+: ["vendor".toList] ∧
        ¬["vendor".toList] <+: (Path.ofString place.1).pieces := by decide
    rcases List.prefix_or_prefix_of_prefix hbelow hin with hcase | hcase
    · exact (hapart place hplace).1 ((List.prefix_append_right_inj r).mp hcase)
    · exact (hapart place hplace).2 ((List.prefix_append_right_inj r).mp hcase)
  · rw [hvendor] at hpackages
    obtain ⟨ks, rfl, hplaced⟩ := descend_locations tree [r ++ ["vendor".toList]]
      (by simpa using hnames) (by simp) hpackages
    intro dir hdir
    obtain ⟨k, hk, rfl⟩ := List.mem_map.mp hdir
    obtain ⟨⟨l, hl, hlk⟩, hentries, -⟩ := hplaced k hk
    obtain rfl := List.mem_singleton.mp hl
    rw [hvendor, isBelow_pathOf hentries hnames]
    exact hlk

/-! ## Distinct members -/

/-- No two extensions that are found have one path, and two that are one directory have it from a
link: one of their paths leads elsewhere. Without links they are distinct directories. -/
theorem discovered_apart (tree : fs.IsTree) (hroot : fs.isDirectory root = true)
    (h : (ofProject fs root .skip).runIn c = (.ok scope, c')) :
    ∃ s, Survey.ofProject fs scope.root = .ok s ∧
      scope.sources = (s.discovered fs ++ s.declared).map (·.source) ∧
      (s.discovered fs).Pairwise fun m m' =>
        m.source.path ≠ m'.source.path ∧
        (canonicalOr fs m.source.path = canonicalOr fs m'.source.path →
          canonicalOr fs m.source.path ≠ m.source.path ∨
            canonicalOr fs m'.source.path ≠ m'.source.path) ∧
        (fs.NoLinks → canonicalOr fs m.source.path ≠ canonicalOr fs m'.source.path) := by
  obtain ⟨s, hsurvey, -, rfl⟩ := ofProject_skip.mp h
  obtain ⟨r, -, hcanonical, hr⟩ := canonicalOr_of_isDirectory tree hroot
  rw [hcanonical] at hsurvey
  obtain ⟨hrootEq, hsearched⟩ := Survey.searched_of_ofProject hsurvey
  have hscopeRoot : (s.scope fs).root = pathOf r := hrootEq
  rw [hscopeRoot]
  refine ⟨s, hsurvey, rfl, Survey.pairwise_discovered
    (R := fun p q => p ≠ q ∧ (canonicalOr fs p = canonicalOr fs q →
      canonicalOr fs p ≠ p ∨ canonicalOr fs q ≠ q) ∧
      (fs.NoLinks → canonicalOr fs p ≠ canonicalOr fs q)) ?_⟩
  -- the places that are searched are paths of different locations
  obtain ⟨ks, hdirs, hnodup, hplaced⟩ := places_locations tree hr hsearched
  rw [hdirs, List.pairwise_map]
  refine hnodup.imp_of_mem ?_
  intro k l hk hl hne
  have hpaths : pathOf k ≠ pathOf l := fun heq =>
    hne (pathOf_injective (hplaced k hk).1 (hplaced l hl).1 heq)
  refine ⟨hpaths, ?_, ?_⟩
  · intro hsame
    by_cases hown : canonicalOr fs (pathOf k) = pathOf k
    · exact .inr fun hown' => hpaths (hown.symm.trans (hsame.trans hown'))
    · exact .inl hown
  · intro links
    rw [canonicalOr_pathOf tree links (hplaced k hk).1 (hplaced k hk).2,
      canonicalOr_pathOf tree links (hplaced l hl).1 (hplaced l hl).2]
    exact hpaths

/-- A shop with an extension of its own that is also linked as a package. -/
def shopWithLinkedPackage : FileSystem where
  entries :=
    [(["shop".toList], .directory),
      (["shop".toList, "composer.json".toList],
        .file "\x7b\"require\":\x7b\"onlishop/core\":\"~6.5.0\"\x7d\x7d".toUTF8 false),
      (["shop".toList, "custom".toList], .directory),
      (["shop".toList, "custom".toList, "plugins".toList], .directory),
      (["shop".toList, "custom".toList, "plugins".toList, "Demo".toList], .directory),
      (["shop".toList, "custom".toList, "plugins".toList, "Demo".toList, "composer.json".toList],
        .file ("\x7b\"type\":\"onlishop-bundle\"," ++
          "\"extra\":\x7b\"onlishop-bundle-name\":\"Demo\"\x7d\x7d").toUTF8 false),
      (["shop".toList, "vendor".toList], .directory),
      (["shop".toList, "vendor".toList, "acme".toList], .directory),
      (["shop".toList, "vendor".toList, "acme".toList, "demo".toList],
        .link (.ofString "../../custom/plugins/Demo"))]
  workingDirectory := []

theorem ofProject_linkedPackage :
    shopWithLinkedPackage.IsTree ∧ shopWithLinkedPackage.isDirectory (.ofString "/shop") = true ∧
      canonicalOr shopWithLinkedPackage (.ofString "/shop/vendor/acme/demo") =
        canonicalOr shopWithLinkedPackage (.ofString "/shop/custom/plugins/Demo") ∧
      ∃ scope after,
        (ofProject shopWithLinkedPackage (.ofString "/shop") .skip).runIn .never =
          (.ok scope, after) ∧
        scope.sources = [⟨"Demo", .ofString "/shop/custom/plugins/Demo"⟩,
          ⟨"Demo", .ofString "/shop/vendor/acme/demo"⟩] := by
  let sourcesShown (scope : Scope) : Bool :=
    decide (scope.sources = [⟨"Demo", .ofString "/shop/custom/plugins/Demo"⟩,
      ⟨"Demo", .ofString "/shop/vendor/acme/demo"⟩])
  have hall : shopWithLinkedPackage.IsTree ∧
      shopWithLinkedPackage.isDirectory (.ofString "/shop") = true ∧
      canonicalOr shopWithLinkedPackage (.ofString "/shop/vendor/acme/demo") =
        canonicalOr shopWithLinkedPackage (.ofString "/shop/custom/plugins/Demo") ∧
      ((ofProject shopWithLinkedPackage (.ofString "/shop") .skip).runIn .never).1.toOption.any
        sourcesShown = true := by decide +kernel
  obtain ⟨tree, hroot, hsame, hany⟩ := hall
  obtain ⟨scope, after, hrun, hscope⟩ := Cancellable.exists_runIn_of_any hany
  exact ⟨tree, hroot, hsame, scope, after, hrun, of_decide_eq_true hscope⟩

/-- The two paths of the linked extension: one of them leads over the link. -/
theorem discovered_apart_linked :
    ∃ scope after s,
      (ofProject shopWithLinkedPackage (.ofString "/shop") .skip).runIn .never = (.ok scope, after) ∧
      Survey.ofProject shopWithLinkedPackage scope.root = .ok s ∧
      scope.sources = (s.discovered shopWithLinkedPackage ++ s.declared).map (·.source) ∧
      (s.discovered shopWithLinkedPackage).Pairwise fun m m' =>
        m.source.path ≠ m'.source.path ∧
        (canonicalOr shopWithLinkedPackage m.source.path =
            canonicalOr shopWithLinkedPackage m'.source.path →
          canonicalOr shopWithLinkedPackage m.source.path ≠ m.source.path ∨
            canonicalOr shopWithLinkedPackage m'.source.path ≠ m'.source.path) := by
  obtain ⟨tree, hroot, -, scope, after, hrun, -⟩ := ofProject_linkedPackage
  obtain ⟨s, hsurvey, hsources, hapart⟩ := discovered_apart tree hroot hrun
  exact ⟨scope, after, s, hrun, hsurvey, hsources,
    hapart.imp fun ⟨hpath, hcanonical, _⟩ => ⟨hpath, hcanonical⟩⟩

/-- An extension that is linked as a package takes part twice. -/
theorem linked_package_twice :
    ∃ scope after,
      (ofProject shopWithLinkedPackage (.ofString "/shop") .skip).runIn .never = (.ok scope, after) ∧
      scope.sources = [⟨"Demo", .ofString "/shop/custom/plugins/Demo"⟩,
        ⟨"Demo", .ofString "/shop/vendor/acme/demo"⟩] ∧
      canonicalOr shopWithLinkedPackage (.ofString "/shop/vendor/acme/demo") =
        canonicalOr shopWithLinkedPackage (.ofString "/shop/custom/plugins/Demo") := by
  obtain ⟨-, -, hsame, scope, after, hrun, hsources⟩ := ofProject_linkedPackage
  exact ⟨scope, after, hrun, hsources, hsame⟩

/-! ## Packages below `vendor` -/

/-- Without links no extension that is found and takes part lies below `vendor`. What is broken
lies there exactly when it is a package there that cannot be used: it is not left out. -/
theorem ofProject_vendor (tree : fs.IsTree) (links : fs.NoLinks)
    (hroot : fs.isDirectory root = true)
    (h : (ofProject fs root .skip).runIn c = (.ok scope, c')) :
    ∃ s packages, Survey.ofProject fs scope.root = .ok s ∧
      candidates fs (scope.root.child "vendor") 2 = .ok packages ∧
      scope.sources = (s.discovered fs ++ s.declared).map (·.source) ∧
      (∀ m ∈ s.discovered fs, m.source.path.isBelow (scope.root.child "vendor") = false) ∧
      scope.loadFailures = (s.broken fs).map s.finding ∧
      ∀ f, f ∈ s.broken fs ∧ f.path.isBelow (scope.root.child "vendor") = true ↔
        f.path ∈ packages ∧ unusable? fs f.path = some f.failure := by
  obtain ⟨s, hsurvey, -, rfl⟩ := ofProject_skip.mp h
  obtain ⟨r, -, hcanonical, hr⟩ := canonicalOr_of_isDirectory tree hroot
  rw [hcanonical] at hsurvey
  obtain ⟨hrootEq, hsearched⟩ := Survey.searched_of_ofProject hsurvey
  -- what is searched below `vendor` are the packages, and the own directories lie outside
  obtain ⟨own, packages, hown, hpackages, hdirs⟩ := searched_places hsearched
  obtain ⟨hownOutside, hpackagesBelow⟩ := isBelow_vendor tree hr hown hpackages
  have hscopeRoot : (s.scope fs).root = pathOf r := hrootEq
  rw [hscopeRoot]
  refine ⟨s, packages, hsurvey, hpackages, rfl, ?_, rfl, ?_⟩
  · intro m hm
    obtain ⟨hmem, hbelow⟩ := Survey.path_of_mem_discovered hm
    obtain ⟨ks, hks, -, hplaced⟩ := places_locations tree hr hsearched
    rw [hks] at hmem
    obtain ⟨k, hk, hpath⟩ := List.mem_map.mp hmem
    rw [← hpath, canonicalOr_pathOf tree links (hplaced k hk).1 (hplaced k hk).2, hrootEq] at hbelow
    rw [← hpath]
    exact hbelow
  · intro f
    rw [Survey.mem_broken, hdirs, List.mem_append]
    constructor
    · rintro ⟨⟨hmem | hmem, hunusable⟩, hbelow⟩
      · rw [hownOutside _ hmem] at hbelow
        cases hbelow
      · exact ⟨hmem, hunusable⟩
    · rintro ⟨hmem, hunusable⟩
      exact ⟨⟨.inr hmem, hunusable⟩, hpackagesBelow _ hmem⟩

/-- A shop with an extension of its own, and a package whose manifest is no JSON. -/
def shopWithBrokenPackage : FileSystem where
  entries :=
    [(["shop".toList], .directory),
      (["shop".toList, "composer.json".toList],
        .file "\x7b\"require\":\x7b\"onlishop/core\":\"~6.5.0\"\x7d\x7d".toUTF8 false),
      (["shop".toList, "custom".toList], .directory),
      (["shop".toList, "custom".toList, "plugins".toList], .directory),
      (["shop".toList, "custom".toList, "plugins".toList, "Demo".toList], .directory),
      (["shop".toList, "custom".toList, "plugins".toList, "Demo".toList, "composer.json".toList],
        .file ("\x7b\"type\":\"onlishop-bundle\"," ++
          "\"extra\":\x7b\"onlishop-bundle-name\":\"Demo\"\x7d\x7d").toUTF8 false),
      (["shop".toList, "vendor".toList], .directory),
      (["shop".toList, "vendor".toList, "acme".toList], .directory),
      (["shop".toList, "vendor".toList, "acme".toList, "broken".toList], .directory),
      (["shop".toList, "vendor".toList, "acme".toList, "broken".toList, "composer.json".toList],
        .file "\x7b".toUTF8 false)]
  workingDirectory := ["shop".toList]

theorem ofProject_brokenPackage :
    shopWithBrokenPackage.IsTree ∧ shopWithBrokenPackage.NoLinks ∧
      shopWithBrokenPackage.isDirectory (.ofString ".") = true ∧
      ∃ scope after,
        (ofProject shopWithBrokenPackage (.ofString ".") .skip).runIn .never = (.ok scope, after) ∧
        scope.root = .ofString "/shop" ∧
        scope.sources = [⟨"Demo", .ofString "/shop/custom/plugins/Demo"⟩] ∧
        scope.loadFailures.map (·.path) = ["vendor/acme/broken"] := by
  let failureShown (scope : Scope) : Bool :=
    decide (scope.root = .ofString "/shop" ∧
      scope.sources = [⟨"Demo", .ofString "/shop/custom/plugins/Demo"⟩] ∧
      scope.loadFailures.map (·.path) = ["vendor/acme/broken"])
  have hall : shopWithBrokenPackage.IsTree ∧
      (∀ p ∈ shopWithBrokenPackage.entries, p.2.isLink = false) ∧
      shopWithBrokenPackage.isDirectory (.ofString ".") = true ∧
      ((ofProject shopWithBrokenPackage (.ofString ".") .skip).runIn .never).1.toOption.any
        failureShown = true := by decide +kernel
  obtain ⟨tree, links, hroot, hany⟩ := hall
  obtain ⟨scope, after, hrun, hscope⟩ := Cancellable.exists_runIn_of_any hany
  exact ⟨tree, noLinks_of_entries links, hroot, scope, after, hrun, of_decide_eq_true hscope⟩

/-- The package in this shop is broken, and the extension of the shop's own is not. -/
theorem ofProject_vendor_broken_package :
    ∃ (scope : Scope) (after : Cancellation) (s : Survey) (packages : List Path),
      (ofProject shopWithBrokenPackage (.ofString ".") .skip).runIn .never = (.ok scope, after) ∧
      scope.root = .ofString "/shop" ∧
      Survey.ofProject shopWithBrokenPackage scope.root = .ok s ∧
      candidates shopWithBrokenPackage (scope.root.child "vendor") 2 = .ok packages ∧
      scope.sources = (s.discovered shopWithBrokenPackage ++ s.declared).map (·.source) ∧
      (∀ m ∈ s.discovered shopWithBrokenPackage,
        m.source.path.isBelow (scope.root.child "vendor") = false) ∧
      scope.loadFailures = (s.broken shopWithBrokenPackage).map s.finding ∧
      ∀ f, f ∈ s.broken shopWithBrokenPackage ∧
          f.path.isBelow (scope.root.child "vendor") = true ↔
        f.path ∈ packages ∧ unusable? shopWithBrokenPackage f.path = some f.failure := by
  obtain ⟨tree, links, hdir, scope, after, hrun, hroot, -⟩ := ofProject_brokenPackage
  obtain ⟨s, packages, hconclusion⟩ := ofProject_vendor tree links hdir hrun
  exact ⟨scope, after, s, packages, hrun, hroot, hconclusion⟩

/-- The package below `vendor` is a load failure, in a tree without links. -/
theorem vendor_package_reported :
    shopWithBrokenPackage.IsTree ∧ shopWithBrokenPackage.NoLinks ∧
      ∃ scope after,
        (ofProject shopWithBrokenPackage (.ofString ".") .skip).runIn .never = (.ok scope, after) ∧
        scope.loadFailures.map (·.path) = ["vendor/acme/broken"] := by
  obtain ⟨tree, links, -, scope, after, hrun, -, -, hfailures⟩ := ofProject_brokenPackage
  exact ⟨tree, links, scope, after, hrun, hfailures⟩

end Scope

end ExtensionAudit
