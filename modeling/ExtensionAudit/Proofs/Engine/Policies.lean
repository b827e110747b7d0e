import ExtensionAudit.Proofs.Engine.Scopes
/-
  The two policies of a search. A search that is not cancelled looks at the same
  candidates in the same order under both; one that aborts ends with the failure that
  the other one notes first, and without failures both find the same. No candidate is
  looked at twice, and one with a manifest is an extension, a failure, or a package
  of another type.

  Main statement: `policies_agree`.
-/

namespace ExtensionAudit

namespace Discovery

open Cancellable (runIn)

variable {fs : FileSystem} {root dir : Path} {dirs : List Path} {policy : DiscoveryPolicy}
  {d : Discovery} {c c' : Cancellation}

/-- The outcome of a search that is not cancelled. -/
def outcome (fs : FileSystem) (root : Path) (policy : DiscoveryPolicy) :
    Except Failure Discovery :=
  (runIn (findExtensions fs root policy) .never).1

/-! ## One search under either policy -/

theorem judge_empty (policy : DiscoveryPolicy) : judge policy .empty = .ok .empty := by
  cases policy <;> rfl

theorem judge_append (policy : DiscoveryPolicy) (found more : Discovery) :
    judge policy (found.append more) =
      (judge policy found).bind fun d => (judge policy more).map d.append := by
  obtain ⟨extensions, failures⟩ := found
  cases policy with
  | skip => rfl
  | abort =>
    cases failures with
    | nil =>
      obtain ⟨more, failures⟩ := more
      cases failures <;> rfl
    | cons f failures => rfl

theorem map_append_append (x : Except Failure Discovery) (d found : Discovery) :
    (x.map found.append).map d.append = x.map (d.append found).append := by
  cases x with
  | error failure => rfl
  | ok more => simp [Except.map, append_assoc]

theorem visit_never (policy : DiscoveryPolicy) (dirs : List Path) (d : Discovery) :
    runIn (visit fs policy d dirs) .never =
      ((judge policy (ofDirectories fs dirs)).map d.append, .never) := by
  induction dirs generalizing d with
  | nil =>
    have hnone : ofDirectories fs [] = .empty := rfl
    rw [visit, hnone, judge_empty, Except.map, append_empty]
    rfl
  | cons dir dirs ih =>
    have hfront : ofDirectories fs (dir :: dirs) =
        (ofDirectories fs [dir]).append (ofDirectories fs dirs) := by
      rw [← ofDirectories_append]
      rfl
    have hpass : runIn checkpoint .never = (.ok (), .never) := rfl
    rw [visit, Cancellable.runIn_bind, hpass, hfront, judge_append]
    dsimp only
    split
    · rename_i hmanifest
      rw [take_eq hmanifest, Cancellable.runIn_bind]
      cases judge policy (ofDirectories fs [dir]) with
      | error failure => rfl
      | ok found => exact (ih (d.append found)).trans (by rw [← map_append_append]; rfl)
    · rename_i hmanifest
      rw [ofDirectories_of_not_hasManifest (by simpa using hmanifest), judge_empty, ih]
      cases judge policy (ofDirectories fs dirs) <;> rfl

/-- A search that can list its places comes to what the policy makes of the candidates. -/
theorem visitPlaces_never (policy : DiscoveryPolicy) {places : List (String × Nat)}
    (h : searched fs root places = .ok dirs) (d : Discovery) :
    runIn (visitPlaces fs policy root d places) .never =
      ((judge policy (ofDirectories fs dirs)).map d.append, .never) := by
  induction places generalizing dirs d with
  | nil =>
    cases h
    exact visit_never policy [] d
  | cons place places ih =>
    obtain ⟨place, depth⟩ := place
    obtain ⟨here, hhere, h⟩ := bind_eq_ok.mp h
    obtain ⟨more, hmore, ⟨⟩⟩ := bind_eq_ok.mp h
    have hlist : runIn (liftExcept (candidates fs (root.child place) depth)) .never =
        (.ok here, .never) := by
      rw [hhere]
      rfl
    rw [visitPlaces, Cancellable.runIn_bind, hlist, ofDirectories_append, judge_append]
    dsimp only
    rw [Cancellable.runIn_bind, visit_never]
    cases judge policy (ofDirectories fs here) with
    | error failure => rfl
    | ok found => exact (ih hmore (d.append found)).trans (by rw [← map_append_append]; rfl)

theorem exists_searched_of_visitPlaces {places : List (String × Nat)} {found : Discovery}
    (h : runIn (visitPlaces fs policy root d places) c = (.ok found, c')) :
    ∃ dirs, searched fs root places = .ok dirs := by
  induction places generalizing d c with
  | nil => exact ⟨[], rfl⟩
  | cons place places ih =>
    obtain ⟨place, depth⟩ := place
    obtain ⟨here, _, hhere, h⟩ := Cancellable.runIn_bind_eq_ok.mp h
    obtain ⟨_, _, _, h⟩ := Cancellable.runIn_bind_eq_ok.mp h
    obtain ⟨more, hmore⟩ := ih h
    refine ⟨here ++ more, ?_⟩
    rw [searched, (Cancellable.runIn_liftExcept_eq_ok.mp hhere).1, hmore]
    rfl

theorem judge_eq_ok {found : Discovery} : judge policy found = .ok d ↔
    found = d ∧ (policy = .abort → d.failures = []) := by
  obtain ⟨extensions, failures⟩ := found
  cases policy with
  | skip => simp [judge]
  | abort =>
    cases failures with
    | nil =>
      have hok : judge .abort ⟨extensions, []⟩ = .ok ⟨extensions, []⟩ := rfl
      rw [hok, Except.ok.injEq]
      exact ⟨fun h => ⟨h, fun _ => h ▸ rfl⟩, fun h => h.1⟩
    | cons f failures =>
      constructor
      · intro h
        cases h
      · rintro ⟨rfl, h⟩
        cases h rfl

theorem judge_abort_of_failures {found : Discovery} {f : DiscoveryFailure}
    {rest : List DiscoveryFailure} (h : found.failures = f :: rest) :
    judge .abort found = .error f.failure := by
  obtain ⟨extensions, failures⟩ := found
  obtain rfl : failures = f :: rest := h
  rfl

theorem outcome_of_searched (h : searched fs root places = .ok dirs) (policy : DiscoveryPolicy) :
    outcome fs root policy = judge policy (ofDirectories fs dirs) := by
  rw [outcome, findExtensions, visitPlaces_never policy h]
  cases judge policy (ofDirectories fs dirs) <;> rfl

/-- A search that ends well found what is in its candidates, without failures if it aborts. -/
theorem outcome_eq_ok : outcome fs root policy = .ok d ↔
    ∃ dirs, searched fs root places = .ok dirs ∧ ofDirectories fs dirs = d ∧
      (policy = .abort → d.failures = []) := by
  constructor
  · intro h
    obtain ⟨dirs, hdirs⟩ : ∃ dirs, searched fs root places = .ok dirs :=
      exists_searched_of_visitPlaces (Prod.ext h rfl)
    rw [outcome_of_searched hdirs] at h
    exact ⟨dirs, hdirs, judge_eq_ok.mp h⟩
  · rintro ⟨dirs, hdirs, h⟩
    rw [outcome_of_searched hdirs]
    exact judge_eq_ok.mpr h

/-! ## What becomes of a candidate -/

/-- Where each result tells what it comes from, the results come from the elements that have
one. -/
theorem map_filterMap_eq_filter {α β : Type} {f : α → Option β} {g : β → α}
    (h : ∀ a b, f a = some b → g b = a) (as : List α) :
    (as.filterMap f).map g = as.filter fun a => (f a).isSome := by
  induction as with
  | nil => rfl
  | cons a as ih =>
    cases hfa : f a with
    | none => simp [hfa, ih]
    | some b => simp [hfa, ih, h a b hfa]

theorem path_of_loaded? {e : Extension} (h : loaded? fs dir = some e) : e.path = dir :=
  Extension.path_of_discover (exists_of_loaded? h).2

theorem path_of_failed? {f : DiscoveryFailure} (h : failed? fs dir = some f) : f.path = dir := by
  unfold failed? at h
  split at h
  · split at h <;> cases h
    rfl
  · cases h

/-- The paths of the extensions are candidates, in the order in which they are looked at. -/
theorem map_path_extensions (fs : FileSystem) (dirs : List Path) :
    (ofDirectories fs dirs).extensions.map (·.path) =
      dirs.filter fun dir => (loaded? fs dir).isSome :=
  map_filterMap_eq_filter (fun _ _ => path_of_loaded?) dirs

theorem map_path_failures (fs : FileSystem) (dirs : List Path) :
    (ofDirectories fs dirs).failures.map (·.path) =
      dirs.filter fun dir => (failed? fs dir).isSome :=
  map_filterMap_eq_filter (fun _ _ => path_of_failed?) dirs

/-- A package of a type that is no extension type is in a directory. -/
def IsOtherPackage (fs : FileSystem) (dir : Path) : Prop :=
  ∃ path type, Extension.discover fs dir = .error (.unsupportedType path type)

/-- A candidate with a manifest is an extension, a failure, or a package of another type, and
never two of these. -/
theorem exactly_one (hdir : dir ∈ dirs) (hmanifest : hasManifest fs dir = true) :
    (dir ∈ (ofDirectories fs dirs).extensions.map (·.path) ∧
      dir ∉ (ofDirectories fs dirs).failures.map (·.path) ∧ ¬IsOtherPackage fs dir) ∨
    (dir ∉ (ofDirectories fs dirs).extensions.map (·.path) ∧
      dir ∈ (ofDirectories fs dirs).failures.map (·.path) ∧ ¬IsOtherPackage fs dir) ∨
    (dir ∉ (ofDirectories fs dirs).extensions.map (·.path) ∧
      dir ∉ (ofDirectories fs dirs).failures.map (·.path) ∧ IsOtherPackage fs dir) := by
  simp only [map_path_extensions, map_path_failures, List.mem_filter, hdir, true_and, loaded?,
    failed?, hmanifest, if_true, IsOtherPackage]
  cases Extension.discover fs dir with
  | ok e => simp [Except.toOption]
  | error failure => cases failure <;> simp [Except.toOption]

/-- The two policies of a search that is not cancelled. It ends well under both, and finds the
same, exactly when the one that passes over failures notes none; otherwise the one that aborts
ends with the failure that the other one notes first. What is found comes from the candidates in
their order, none of them twice, and each candidate with a manifest is in exactly one of three
groups: the extensions, the failures, and the packages of another type, which are passed over. -/
theorem policies_agree (fs : FileSystem) (root : Path) :
    (∀ d, outcome fs root .abort = .ok d ↔ outcome fs root .skip = .ok d ∧ d.failures = []) ∧
    (∀ d f rest, outcome fs root .skip = .ok d → d.failures = f :: rest →
      outcome fs root .abort = .error f.failure) ∧
    ∀ d, outcome fs root .skip = .ok d → ∃ dirs, searched fs root places = .ok dirs ∧
      (fs.IsTree → dirs.Nodup) ∧
      (d.extensions.map (·.path)).Sublist dirs ∧ (d.failures.map (·.path)).Sublist dirs ∧
      ∀ dir ∈ dirs, hasManifest fs dir = true →
        (dir ∈ d.extensions.map (·.path) ∧ dir ∉ d.failures.map (·.path) ∧
          ¬IsOtherPackage fs dir) ∨
        (dir ∉ d.extensions.map (·.path) ∧ dir ∈ d.failures.map (·.path) ∧
          ¬IsOtherPackage fs dir) ∨
        (dir ∉ d.extensions.map (·.path) ∧ dir ∉ d.failures.map (·.path) ∧
          IsOtherPackage fs dir) := by
  refine ⟨fun d => ?_, fun d f rest hskip hfailures => ?_, fun d hskip => ?_⟩
  · constructor
    · intro habort
      obtain ⟨dirs, hdirs, hfound, hnone⟩ := outcome_eq_ok.mp habort
      exact ⟨outcome_eq_ok.mpr ⟨dirs, hdirs, hfound, nofun⟩, hnone rfl⟩
    · rintro ⟨hskip, hnone⟩
      obtain ⟨dirs, hdirs, hfound, -⟩ := outcome_eq_ok.mp hskip
      exact outcome_eq_ok.mpr ⟨dirs, hdirs, hfound, fun _ => hnone⟩
  · obtain ⟨dirs, hdirs, rfl, -⟩ := outcome_eq_ok.mp hskip
    rw [outcome_of_searched hdirs, judge_abort_of_failures hfailures]
  · obtain ⟨dirs, hdirs, rfl, -⟩ := outcome_eq_ok.mp hskip
    refine ⟨dirs, hdirs, fun tree => ?_, ?_, ?_, fun dir hdir hmanifest => exactly_one hdir hmanifest⟩
    · have hnodup := (nodup_searched tree (by decide) (by decide) hdirs).1
      exact (List.pairwise_map.mp hnodup).imp fun hne heq => hne (congrArg Path.steps heq)
    · rw [map_path_extensions]
      exact List.filter_sublist
    · rw [map_path_failures]
      exact List.filter_sublist

end Discovery

end ExtensionAudit
