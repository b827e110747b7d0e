import ExtensionAudit.Proofs.Engine.Alone
import ExtensionAudit.Proofs.Engine.Surroundings
import ExtensionAudit.Proofs.Engine.Unaware
/-
  Extensions that cannot be used. One more directory among the extensions of a
  project whose package cannot be used adds one finding to a run that passes over
  it, and changes nothing else, unless a directory that takes part has a path that
  leads over it.

  Main statement: `validateProject_around_unusable`.
-/

namespace ExtensionAudit

open FileSystem Discovery Survey

variable {s : Setup} {w after : World} {root : Path} {mode : Mode} {o : Outcome} {c : Cancellation}
  {r D : Location} {place : List Text} {name : Text} {failure : Failure} {scope : Scope}

/-! ## The scope -/

/-- A package that cannot be used has a manifest, so that its path is not too long. -/
theorem Discovery.nameSize_of_unusable {fs : FileSystem} (hD : ∀ n ∈ D, IsEntryName n)
    (h : unusable? fs (pathOf D) = some failure) : nameSize (pathOf D).text ≤ pathLimit := by
  have hmanifest : fs.isFile ((pathOf D).child Manifest.fileName) = true := by
    unfold unusable? at h
    split at h
    · assumption
    · cases h
  rw [Path.child, Path.ofString, join_pathOf_name hD (by decide)] at hmanifest
  unfold isFile at hmanifest
  cases htarget : fs.target (pathOf (D ++ [Manifest.fileName.toList])) with
  | error kind =>
    rw [htarget] at hmanifest
    cases hmanifest
  | ok found =>
    obtain ⟨here, hstart, -⟩ := resolve_eq_ok_iff.mp (target_eq_ok_iff.mp htarget)
    obtain ⟨-, -, hsize, -⟩ := start_eq_ok_iff.mp hstart
    exact Nat.le_trans (nameSize_pathOf_le D _) hsize

/-- The scope of a project with one more directory that cannot be used has one more load failure,
and is the same otherwise. Reading it passes one more checkpoint. -/
theorem Scope.ofProject_around {fs : FileSystem} {c c' c'' : Cancellation} (tree : fs.IsTree)
    (tree' : (fs.prune D).IsTree) (links : (fs.prune D).NoLinks)
    (hroot : (fs.prune D).target root = .ok (r, .directory)) (hplace : place ∈ ownDirectories)
    (hD : D = r ++ place ++ [name]) (hthere : fs.get? D = some .directory)
    (hunusable : unusable? fs (pathOf D) = some failure)
    (hpass : c.pass? = some c')
    (hscope : (Scope.ofProject (fs.prune D) root .skip).runIn c' = (.ok scope, c''))
    (hapart : ∀ dir ∈ scope.sourceDirs, ∀ l e, fs.target dir = .ok (l, e) →
      (fs.prune D).target dir = .ok (l, e) ∧ ¬l <+: D) :
    ∃ before after, scope.loadFailures = before ++ after ∧
      (Scope.ofProject fs root .skip).runIn c =
        (.ok { scope with loadFailures :=
          before ++ Scope.loadFailure (pathOf r) (pathOf D) failure :: after }, c'') ∧
      (∀ dir ∈ scope.sourceDirs, Apart D fs dir) ∧
      ∀ a, ∀ dir ∈ scope.templateDirs a, dir.Beside D := by
  have hne : D ≠ [] := by simp [hD]
  have hnames := tree.names_of_get? hthere
  have hprunes := prunes_self tree links
  have hroot' := hprunes.target_of_target hne (tree'.not_prefix_workingDirectory hne) hroot
  have hcanonical {fs : FileSystem} (h : fs.target root = .ok (r, .directory)) :
      Scope.canonicalOr fs root = pathOf r := by
    rw [Scope.canonicalOr, canonical, h]
    rfl
  obtain ⟨survey, hsurvey, hall, rfl⟩ := Scope.ofProject_skip.mp hscope
  rw [hcanonical hroot] at hsurvey
  -- the search finds one directory more, and nothing of the rest looks into it
  obtain ⟨front, back, hdirs, hsurvey', hout⟩ := Survey.ofProject_around hD hplace tree tree' links
    hthere (nameSize_of_unusable hnames hunusable) hsurvey
  obtain ⟨hsurveyRoot, -⟩ := searched_of_ofProject hsurvey
  have habsolute : ∀ dir ∈ survey.sourceDirs (fs.prune D), dir.isAbsolute = true := fun dir hdir =>
    isAbsolute_of_mem_sourceDirs (by rw [hsurveyRoot]; exact isAbsolute_pathOf r)
      (fun q hq => (hout q hq).absolute) hdir
  have hsources : ∀ dir ∈ survey.sourceDirs (fs.prune D), Apart D fs dir := fun dir hdir =>
    hprunes.apart_of_target hne (habsolute dir hdir) (hapart dir hdir)
  obtain ⟨before, after, hbefore, hafter⟩ := scope_around hprunes hdirs hout hunusable
    (by rw [hsurveyRoot]; exact isAbsolute_pathOf r) hsources
  refine ⟨before, after, hbefore, ?_, hsources, ?_⟩
  · rw [← hsurveyRoot] at hsurvey' ⊢
    rw [Scope.ofProject_skip, hcanonical hroot', ← hsurveyRoot]
    refine ⟨_, hsurvey', ?_, hafter.symm⟩
    -- that directory costs one more check of the token, which `hpass` lets through
    have hlength : (front ++ pathOf D :: back).length = survey.dirs.length + 1 := by
      rw [hdirs, List.length_append, List.length_append, List.length_cons]
      omega
    rw [hlength, Cancellation.passAll?, hpass]
    exact hall
  · intro a dir hdir
    obtain ⟨hsame, hbeside⟩ := templateDirs_around a hprunes habsolute hsources
    refine hbeside dir ?_
    rw [← hsame]
    cases a <;> exact hdir

namespace Run

/-! ## Runs over a project -/

theorem validateProject_eq_ok {policy : DiscoveryPolicy} :
    (validateProject s root policy mode).runIn w = (.ok o, after) ↔
      ∃ scope c, (Scope.ofProject w.fs root policy).runIn w.cancellation = (.ok scope, c) ∧
        (validateScope s scope mode).runIn { w with cancellation := c } = (.ok o, after) := by
  have hread (step : Cancellable Scope) : (ofCancellable step).runIn w =
      ((step.runIn w.cancellation).1,
        { w with cancellation := (step.runIn w.cancellation).2 }) := rfl
  unfold validateProject
  rw [runIn_bind, runIn_get]
  dsimp only
  rw [runIn_bind, hread]
  cases hscope : (Scope.ofProject w.fs root policy).runIn w.cancellation with
  | mk result c =>
    cases result with
    | error failure =>
      constructor
      · nofun
      · rintro ⟨scope, c, ⟨⟩, -⟩
    | ok scope =>
      constructor
      · exact fun h => ⟨scope, c, rfl, h⟩
      · rintro ⟨_, _, ⟨⟩, h⟩
        exact h

/-- What a scope is examined for goes into its report behind what could not be loaded. -/
theorem validateScope_eq_ok : (validateScope s scope mode).runIn w = (.ok o, after) ↔
    ∃ found, (examine s scope.root scope.constraint scope.platformVersion (decide (mode = .check))
        scope.sourceDirs (areas.map fun a => (a, scope.templateDirs a)) mode
        (.withIgnores [])).runIn w = (.ok found, after) ∧
      o = ⟨kept scope.ignores (scope.loadFailures ++ found.findings), found.fixed⟩ := by
  unfold validateScope
  rw [examine_behind, runIn_map]
  cases (examine s scope.root scope.constraint scope.platformVersion (decide (mode = .check))
    scope.sourceDirs (areas.map fun a => (a, scope.templateDirs a)) mode
    (.withIgnores [])).runIn w with
  | mk result last =>
    cases result with
    | error failure =>
      constructor
      · nofun
      · rintro ⟨found, ⟨⟩, -⟩
    | ok found =>
      constructor
      · rintro ⟨⟩
        exact ⟨found, rfl, rfl⟩
      · rintro ⟨_, ⟨⟩, rfl⟩
        rfl

/-- A run that passes over what cannot be loaded and is never cancelled, where its scope and its
outcome can be computed. -/
theorem exists_validateProject_of_any {fs : FileSystem} {f : Scope → Bool} {g : Outcome → Bool}
    (h : ((Scope.ofProject fs root .skip).runIn .never).1.toOption.any (fun scope => f scope &&
      ((validateScope s scope mode).runIn ⟨fs, .never, []⟩).1.toOption.any g) = true) :
    ∃ scope o after, (Scope.ofProject fs root .skip).runIn .never = (.ok scope, .never) ∧
      f scope = true ∧
      (validateProject s root .skip mode).runIn ⟨fs, .never, []⟩ = (.ok o, after) ∧ g o = true := by
  obtain ⟨scope, c, hscope, hany⟩ := Cancellable.exists_runIn_of_any h
  obtain ⟨hf, hany⟩ := Bool.and_eq_true_iff.mp hany
  obtain ⟨survey, -, hpass, -⟩ := Scope.ofProject_skip.mp hscope
  rw [Cancellation.passAll?_never] at hpass
  cases hpass
  obtain ⟨o, hresult, hg⟩ := exists_ok_of_any hany
  exact ⟨scope, o, _, hscope, hf,
    validateProject_eq_ok.mpr ⟨scope, .never, hscope, Prod.ext hresult rfl⟩, hg⟩

/-! ## One more directory -/

/-- One more directory among the extensions of a project that cannot be used: where a run without
it ends well, so does a run with it, as long as every path to a directory that takes part leads to
the same place with it as without it, and to no place above it. The run finds the same, and the
load failure of that directory unless a rule covers it; it rewrites the same files in the same way,
and leaves the directory as it was. -/
theorem validateProject_around_unusable {c' : Cancellation} (hlinter : s.linter.IsLocal)
    (htable : s.table.entries (w.fs.prune D) = s.table.entries w.fs)
    (tree : w.fs.IsTree) (tree' : (w.fs.prune D).IsTree) (links : (w.fs.prune D).NoLinks)
    (hroot : (w.fs.prune D).target root = .ok (r, .directory)) (hplace : place ∈ ownDirectories)
    (hD : D = r ++ place ++ [name]) (hthere : w.fs.get? D = some .directory)
    (hunusable : unusable? w.fs (pathOf D) = some failure)
    (hpass : w.cancellation.pass? = some c)
    (hscope : (Scope.ofProject (w.fs.prune D) root .skip).runIn c = (.ok scope, c'))
    (hapart : ∀ dir ∈ scope.sourceDirs, ∀ l e, w.fs.target dir = .ok (l, e) →
      (w.fs.prune D).target dir = .ok (l, e) ∧ ¬l <+: D)
    (hrun : (validateProject s root .skip mode).runIn { w.prune D with cancellation := c } =
      (.ok o, after)) :
    ∃ o' after' f front back,
      (validateProject s root .skip mode).runIn w = (.ok o', after') ∧
      f.severity = .error ∧ f.identifier = "extension.load" ∧
      f.path = String.ofList (Text.replaceChar '\\' '/' (Path.unpieces (place ++ [name]))) ∧
      o.findings = front ++ back ∧
      o'.findings = front ++ (if ∃ rule ∈ scope.ignores, rule.Covers f then [] else [f]) ++ back ∧
      o'.fixed = o.fixed ∧ after'.prune D = after ∧
      ∀ k, D <+: k → after'.fs.get? k = w.fs.get? k := by
  have hne : D ≠ [] := by simp [hD]
  have hnames := tree.names_of_get? hthere
  obtain ⟨before, behind, hfailures, hscope', hsources, htemplates⟩ :=
    Scope.ofProject_around tree tree' links hroot hplace hD hthere hunusable hpass hscope hapart
  obtain ⟨_, _, hread, hvalidate⟩ := validateProject_eq_ok.mp hrun
  obtain ⟨rfl, rfl⟩ : scope = _ ∧ c' = _ := by simpa using hscope.symm.trans hread
  obtain ⟨found, hexamine, rfl⟩ := validateScope_eq_ok.mp hvalidate
  -- from here on both runs do the same
  let read : World := { w with cancellation := c' }
  have hbeside : ∀ t ∈ areas.map fun a => (a, scope.templateDirs a), ∀ dir ∈ t.2, dir.Beside D := by
    intro t ht
    obtain ⟨a, -, rfl⟩ := List.mem_map.mp ht
    exact htemplates a
  have hunaware : Unaware D w.fs read
      (examine s scope.root scope.constraint scope.platformVersion (decide (mode = .check))
        scope.sourceDirs (areas.map fun a => (a, scope.templateDirs a)) mode (.withIgnores []))
      (examine s scope.root scope.constraint scope.platformVersion (decide (mode = .check))
        scope.sourceDirs (areas.map fun a => (a, scope.templateDirs a)) mode (.withIgnores []))
      fun _ _ => True :=
    Unaware.examine hne hlinter _ (prunes_self tree links) tree tree' htable hsources hbeside
  obtain ⟨hsame, hfiles, -⟩ := hunaware
  have hpruned : read.prune D = { w.prune D with cancellation := c' } := rfl
  rw [hpruned, hexamine] at hsame
  obtain ⟨hfound, hafter⟩ := Prod.mk.inj hsame
  let f := Scope.loadFailure (pathOf r) (pathOf D) failure
  refine ⟨⟨kept scope.ignores (before ++ f :: behind ++ found.findings), found.fixed⟩, _, f,
    kept scope.ignores before, kept scope.ignores (behind ++ found.findings),
    validateProject_eq_ok.mpr ⟨_, c', hscope', validateScope_eq_ok.mpr
      ⟨found, Prod.ext hfound.symm rfl, rfl⟩⟩, rfl, rfl, ?_, ?_, ?_, rfl, hafter.symm, hfiles.same⟩
  · show Path.relativeTo (pathOf r) (pathOf D) = _
    rw [hD, List.append_assoc]
    refine relativeTo_pathOf (fun n hn => hnames n (by simp [hD, hn])) (fun n hn => ?_) (by simp)
    exact hnames n (by rw [hD, List.append_assoc]; exact List.mem_append_right r hn)
  · rw [hfailures, List.append_assoc, kept_append]
  · rw [← kept_singleton, ← kept_append, ← kept_append]
    simp

/-- A shop with a bundle, a directory next to it whose manifest is no JSON, and a package that is
broken as well. The bundle has its classes in the given directory, and there is a template in
`shared`. -/
def shopWithBrokenPlugin (autoload : String) : FileSystem where
  entries :=
    [(["shop".toList], .directory),
      (["shop".toList, "composer.json".toList],
        .file "\x7b\"require\":\x7b\"onlishop/core\":\"~6.5.0\"\x7d\x7d".toUTF8 false),
      (["shop".toList, "custom".toList], .directory),
      (["shop".toList, "custom".toList, "plugins".toList], .directory),
      (["shop".toList, "custom".toList, "plugins".toList, "New".toList], .directory),
      (["shop".toList, "custom".toList, "plugins".toList, "New".toList, "composer.json".toList],
        .file "\x7b".toUTF8 false),
      (["shop".toList, "custom".toList, "static-plugins".toList], .directory),
      (["shop".toList, "custom".toList, "static-plugins".toList, "Demo".toList], .directory),
      (["shop".toList, "custom".toList, "static-plugins".toList, "Demo".toList,
          "composer.json".toList],
        .file ("\x7b\"type\":\"onlishop-bundle\"," ++
          "\"autoload\":\x7b\"psr-4\":\x7b\"Demo\":\"" ++ autoload ++ "\"\x7d\x7d," ++
          "\"extra\":\x7b\"onlishop-bundle-name\":\"Demo\"\x7d\x7d").toUTF8 false),
      (["shop".toList, "custom".toList, "shared".toList], .directory),
      (["shop".toList, "custom".toList, "shared".toList, "Resources".toList], .directory),
      (["shop".toList, "custom".toList, "shared".toList, "Resources".toList, "app".toList],
        .directory),
      (["shop".toList, "custom".toList, "shared".toList, "Resources".toList, "app".toList,
          "storefront".toList], .directory),
      (["shop".toList, "custom".toList, "shared".toList, "Resources".toList, "app".toList,
          "storefront".toList, "a.twig".toList], .file "<a data-toggle></a>".toUTF8 false),
      (["shop".toList, "vendor".toList], .directory),
      (["shop".toList, "vendor".toList, "acme".toList], .directory),
      (["shop".toList, "vendor".toList, "acme".toList, "broken".toList], .directory),
      (["shop".toList, "vendor".toList, "acme".toList, "broken".toList, "composer.json".toList],
        .file "\x7b".toUTF8 false)]
  workingDirectory := ["shop".toList]

/-- The shop where the path to the classes leads straight to `shared`. -/
def directShop : FileSystem := shopWithBrokenPlugin "../../shared"

/-- The shop where the path to the classes makes a detour over the broken plugin. -/
def detourShop : FileSystem := shopWithBrokenPlugin "../../plugins/New/../../shared"

def brokenPlugin : Location := ["shop".toList, "custom".toList, "plugins".toList, "New".toList]

/-- The broken plugin of this shop is passed over, and the template is rewritten all the same. -/
theorem validateProject_around_unusable_shop :
    ∃ scope c' o after,
      (Scope.ofProject (directShop.prune brokenPlugin) (.ofString ".") .skip).runIn .never =
        (.ok scope, c') ∧
      (validateProject toggleSetup (.ofString ".") .skip .fix).runIn
        ⟨directShop.prune brokenPlugin, .never, []⟩ = (.ok o, after) ∧
      o.fixed = [.ofString
        "/shop/custom/static-plugins/Demo/../../shared/Resources/app/storefront/a.twig"] ∧
      ∃ o' after' f front back,
        (validateProject toggleSetup (.ofString ".") .skip .fix).runIn ⟨directShop, .never, []⟩ =
          (.ok o', after') ∧
        f.severity = .error ∧ f.identifier = "extension.load" ∧ f.path = "custom/plugins/New" ∧
        o.findings = front ++ back ∧
        o'.findings = front ++ (if ∃ rule ∈ scope.ignores, rule.Covers f then [] else [f]) ++ back ∧
        o'.fixed = o.fixed ∧ after'.prune brokenPlugin = after ∧
        ∀ k, brokenPlugin <+: k → after'.fs.get? k = directShop.get? k := by
  have hall : directShop.IsTree ∧ (directShop.prune brokenPlugin).IsTree ∧
      (∀ p ∈ (directShop.prune brokenPlugin).entries, p.2.isLink = false) ∧
      unusable? directShop (pathOf brokenPlugin) =
        some (.manifestMalformed "composer.json"
          (.ofString "/shop/custom/plugins/New/composer.json")) ∧
      ((Scope.ofProject (directShop.prune brokenPlugin) (.ofString ".") .skip).runIn
        .never).1.toOption.any (fun scope =>
          decide (scope.sourceDirs =
            [.ofString "/shop/custom/static-plugins/Demo/../../shared"]) &&
          ((validateScope toggleSetup scope .fix).runIn
            ⟨directShop.prune brokenPlugin, .never, []⟩).1.toOption.any
              fun o => decide (o.fixed = [.ofString
                "/shop/custom/static-plugins/Demo/../../shared/Resources/app/storefront/a.twig"])) =
        true := by decide +kernel
  obtain ⟨tree, tree', links, hunusable, hany⟩ := hall
  obtain ⟨scope, o, after, hscope, hdirs, hrun, hfixed⟩ := exists_validateProject_of_any hany
  have hplace : ["custom".toList, "plugins".toList] ∈ ownDirectories := by decide
  have hD : brokenPlugin =
      ["shop".toList] ++ ["custom".toList, "plugins".toList] ++ ["New".toList] := rfl
  -- the only directory of classes is there with the broken plugin and without it
  have hshared : directShop.target (.ofString "/shop/custom/static-plugins/Demo/../../shared") =
      .ok (["shop".toList, "custom".toList, "shared".toList], .directory) := rfl
  have hapart : ∀ dir ∈ scope.sourceDirs, ∀ l e, directShop.target dir = .ok (l, e) →
      (directShop.prune brokenPlugin).target dir = .ok (l, e) ∧ ¬l <+: brokenPlugin := by
    rw [of_decide_eq_true hdirs]
    intro dir hdir l e htarget
    obtain rfl := List.mem_singleton.mp hdir
    obtain ⟨rfl, rfl⟩ := Prod.mk.inj (Except.ok.inj (hshared.symm.trans htarget))
    exact ⟨rfl, by decide⟩
  obtain ⟨o', after', f, front, back, hrest⟩ := validateProject_around_unusable
    (w := ⟨directShop, .never, []⟩)
    (fun _ _ _ _ _ _ _ _ _ _ => rfl) rfl tree tree' (noLinks_of_entries links) rfl hplace hD rfl
    hunusable rfl hscope hapart hrun
  exact ⟨scope, .never, o, after, hscope, hrun, of_decide_eq_true hfixed, o', after', f, front,
    back, hrest⟩

/-- In this shop the path to the classes of the bundle leads over the broken plugin, and nowhere
without it. The plugin is neither in the directory that the path names nor above it, and yet the
template there is found and rewritten only where the plugin is. -/
theorem validateProject_over_unusable :
    detourShop.IsTree ∧ (detourShop.prune brokenPlugin).IsTree ∧
      (detourShop.prune brokenPlugin).NoLinks ∧
      detourShop.get? (brokenPlugin ++ ["composer.json".toList]) =
        some (.file "\x7b".toUTF8 false) ∧
      unusable? detourShop (pathOf brokenPlugin) =
        some (.manifestMalformed "composer.json"
          (.ofString "/shop/custom/plugins/New/composer.json")) ∧
      (∃ scope c',
        (Scope.ofProject (detourShop.prune brokenPlugin) (.ofString ".") .skip).runIn .never =
          (.ok scope, c') ∧
        ∀ dir ∈ scope.sourceDirs,
          ¬brokenPlugin <+: walk [] dir.steps ∧ ¬walk [] dir.steps <+: brokenPlugin) ∧
      ∃ o after o' after',
        (validateProject toggleSetup (.ofString ".") .skip .fix).runIn
          ⟨detourShop.prune brokenPlugin, .never, []⟩ = (.ok o, after) ∧
        (validateProject toggleSetup (.ofString ".") .skip .fix).runIn ⟨detourShop, .never, []⟩ =
          (.ok o', after') ∧
        o.fixed = [] ∧
        o'.fixed = [.ofString ("/shop/custom/static-plugins/Demo/../../plugins/New/../../shared/" ++
          "Resources/app/storefront/a.twig")] := by
  -- all of it is one computation, so that the runs are evaluated only once
  have hall : detourShop.IsTree ∧ (detourShop.prune brokenPlugin).IsTree ∧
      (∀ p ∈ (detourShop.prune brokenPlugin).entries, p.2.isLink = false) ∧
      unusable? detourShop (pathOf brokenPlugin) =
        some (.manifestMalformed "composer.json"
          (.ofString "/shop/custom/plugins/New/composer.json")) ∧
      ((Scope.ofProject (detourShop.prune brokenPlugin) (.ofString ".") .skip).runIn
        .never).1.toOption.any (fun scope =>
          decide (∀ dir ∈ scope.sourceDirs,
            ¬brokenPlugin <+: walk [] dir.steps ∧ ¬walk [] dir.steps <+: brokenPlugin) &&
          ((validateScope toggleSetup scope .fix).runIn
            ⟨detourShop.prune brokenPlugin, .never, []⟩).1.toOption.any
              fun o => decide (o.fixed = [])) = true ∧
      ((Scope.ofProject detourShop (.ofString ".") .skip).runIn
        .never).1.toOption.any (fun scope => true &&
          ((validateScope toggleSetup scope .fix).runIn ⟨detourShop, .never, []⟩).1.toOption.any
            fun o => decide (o.fixed = [.ofString
              ("/shop/custom/static-plugins/Demo/../../plugins/New/../../shared/" ++
                "Resources/app/storefront/a.twig")])) = true := by decide +kernel
  obtain ⟨tree, tree', links, hunusable, hany, hany'⟩ := hall
  obtain ⟨scope, o, after, hscope, hdirs, hrun, hfixed⟩ := exists_validateProject_of_any hany
  obtain ⟨-, o', after', -, -, hrun', hfixed'⟩ := exists_validateProject_of_any hany'
  exact ⟨tree, tree', noLinks_of_entries links, rfl, hunusable,
    ⟨scope, .never, hscope, of_decide_eq_true hdirs⟩, o, after, o', after', hrun, hrun',
    of_decide_eq_true hfixed, of_decide_eq_true hfixed'⟩

end Run

end ExtensionAudit
