import ExtensionAudit.Extension.Project
import ExtensionAudit.Proofs.Files.Joining
import ExtensionAudit.Proofs.Files.Listing
/-
  Searching a project. A search that passes over what cannot be loaded looks at
  every candidate, one checkpoint each, and what it finds is what each candidate
  gives on its own. In a tree no candidate comes twice, and each is a directory below
  the place where it is looked for.

  Main statements: `Discovery.findExtensions_skip`, `Discovery.nodup_searched` and
  `Discovery.searched_locations`.
-/

namespace ExtensionAudit

/-! ## Steps that can be cancelled -/

/-- The cancellation after so many checkpoints, if all of them are passed. -/
def Cancellation.passAll? (c : Cancellation) : Nat → Option Cancellation
  | 0 => some c
  | n + 1 => c.pass?.bind (passAll? · n)

theorem Cancellation.passAll?_add (c : Cancellation) (m n : Nat) :
    c.passAll? (m + n) = (c.passAll? m).bind (passAll? · n) := by
  induction m generalizing c with
  | zero => rw [Nat.zero_add]; rfl
  | succ m ih =>
    rw [Nat.succ_add, passAll?, passAll?]
    cases c.pass? with
    | none => rfl
    | some c => exact ih c

theorem Cancellation.passAll?_never (n : Nat) : never.passAll? n = some never := by
  induction n with
  | zero => rfl
  | succ n ih => exact ih

namespace Cancellable

variable {α β : Type}

/-- The result of a step that begins under a cancellation, and the cancellation after it. -/
def runIn (step : Cancellable α) (c : Cancellation) : Except Failure α × Cancellation :=
  step.run.run c

theorem runIn_pure_eq_ok {a b : α} {c c' : Cancellation} :
    runIn (pure a) c = (.ok b, c') ↔ b = a ∧ c' = c := by
  constructor
  · rintro ⟨⟩
    exact ⟨rfl, rfl⟩
  · rintro ⟨rfl, rfl⟩
    rfl

theorem runIn_bind (step : Cancellable α) (f : α → Cancellable β) (c : Cancellation) :
    runIn (step >>= f) c =
      match runIn step c with
      | (.ok a, between) => runIn (f a) between
      | (.error e, between) => (.error e, between) := by
  simp only [runIn, ExceptT.run_bind, StateT.run_bind]
  cases hrun : step.run.run c with
  | mk result between => cases result <;> rfl

theorem runIn_bind_eq_ok {step : Cancellable α} {f : α → Cancellable β} {b : β}
    {c c' : Cancellation} : runIn (step >>= f) c = (.ok b, c') ↔
      ∃ a between, runIn step c = (.ok a, between) ∧ runIn (f a) between = (.ok b, c') := by
  rw [runIn_bind]
  cases runIn step c with
  | mk result between =>
    cases result with
    | error e => exact ⟨nofun, nofun⟩
    | ok a =>
      constructor
      · exact fun h => ⟨a, between, rfl, h⟩
      · rintro ⟨_, _, ⟨⟩, h⟩
        exact h

theorem exists_runIn_of_any {x : Cancellable α} {c : Cancellation} {p : α → Bool}
    (h : (runIn x c).1.toOption.any p = true) :
    ∃ a after, runIn x c = (.ok a, after) ∧ p a = true := by
  cases hrun : runIn x c with
  | mk result after =>
    rw [hrun] at h
    cases result with
    | error e => cases h
    | ok a => exact ⟨a, after, rfl, h⟩

theorem runIn_liftExcept_eq_ok {r : Except Failure α} {a : α} {c c' : Cancellation} :
    runIn (liftExcept r) c = (.ok a, c') ↔ r = .ok a ∧ c' = c := by
  constructor
  · intro h
    exact ⟨congrArg (·.1) h, (congrArg (·.2) h).symm⟩
  · rintro ⟨rfl, rfl⟩
    rfl

theorem runIn_checkpoint_eq_ok {c c' : Cancellation} :
    runIn checkpoint c = (.ok (), c') ↔ c.pass? = some c' := by
  have hrun : runIn checkpoint c =
      c.pass?.elim (.error .cancelled, c) fun passed => (.ok (), passed) := by
    obtain ⟨_ | _ | n⟩ := c <;> rfl
  rw [hrun]
  cases c.pass? with
  | none => simp
  | some passed => simp

end Cancellable

/-! ## Looking at candidates -/

namespace Discovery

/-- The extension in a directory that holds a manifest. -/
def loaded? (fs : FileSystem) (dir : Path) : Option Extension :=
  if hasManifest fs dir then (Extension.discover fs dir).toOption else none

/-- The failure to load an extension, unless a package of another type is there. -/
def failed? (fs : FileSystem) (dir : Path) : Option DiscoveryFailure :=
  if hasManifest fs dir then
    match Extension.discover fs dir with
    | .ok _ => none
    | .error (.unsupportedType _ _) => none
    | .error failure => some ⟨dir, failure⟩
  else none

/-- What is found when these directories are looked at. -/
def ofDirectories (fs : FileSystem) (dirs : List Path) : Discovery :=
  ⟨dirs.filterMap (loaded? fs), dirs.filterMap (failed? fs)⟩

/-- One discovery after another. -/
def append (d d' : Discovery) : Discovery :=
  ⟨d.extensions ++ d'.extensions, d.failures ++ d'.failures⟩

theorem append_assoc (d d' d'' : Discovery) :
    (d.append d').append d'' = d.append (d'.append d'') := by
  simp [append]

theorem ofDirectories_append (fs : FileSystem) (dirs dirs' : List Path) :
    ofDirectories fs (dirs ++ dirs') = (ofDirectories fs dirs).append (ofDirectories fs dirs') := by
  simp [ofDirectories, append]

variable {fs : FileSystem} {root dir : Path} {dirs : List Path} {d d' : Discovery}
  {c c' : Cancellation}

/-- What a policy makes of what is found: a search that aborts ends with the first failure. -/
def judge (policy : DiscoveryPolicy) (found : Discovery) : Except Failure Discovery :=
  match policy, found.failures with
  | .abort, f :: _ => .error f.failure
  | _, _ => .ok found

/-- A directory with a manifest gives what loading it comes to, as the policy judges it. -/
theorem take_eq (hmanifest : hasManifest fs dir = true) (policy : DiscoveryPolicy)
    (d : Discovery) : take policy d dir (Extension.discover fs dir) =
      (judge policy (ofDirectories fs [dir])).map d.append := by
  simp only [ofDirectories, List.filterMap_cons, List.filterMap_nil, loaded?, failed?, hmanifest,
    if_true]
  cases Extension.discover fs dir with
  | ok e => cases policy <;> simp [take, append, Except.toOption, judge, Except.map]
  | error failure =>
    cases policy <;> cases failure <;>
      simp [take, append, Except.toOption, judge, Except.map]

theorem ofDirectories_of_not_hasManifest (hmanifest : hasManifest fs dir = false) :
    ofDirectories fs [dir] = .empty := by
  simp [ofDirectories, loaded?, failed?, hmanifest, empty]

theorem append_empty (d : Discovery) : d.append .empty = d := by
  simp [append, empty]

theorem visit_skip : (visit fs .skip d dirs).runIn c = (.ok d', c') ↔
    c.passAll? dirs.length = some c' ∧ d' = d.append (ofDirectories fs dirs) := by
  induction dirs generalizing d c with
  | nil =>
    rw [visit, Cancellable.runIn_pure_eq_ok]
    have hnone : ofDirectories fs [] = .empty := rfl
    rw [hnone, append_empty, List.length_nil, Cancellation.passAll?, Option.some.injEq, eq_comm (a := c)]
    exact and_comm
  | cons dir dirs ih =>
    have hfront : d.append (ofDirectories fs (dir :: dirs)) =
        (d.append (ofDirectories fs [dir])).append (ofDirectories fs dirs) := by
      rw [append_assoc, ← ofDirectories_append]
      rfl
    rw [visit, Cancellable.runIn_bind_eq_ok, List.length_cons, Cancellation.passAll?, hfront]
    -- behind the check of the token; a directory without a manifest adds nothing
    have hrest (passed : Cancellation) : ((if hasManifest fs dir then do
          let d ← liftExcept (take .skip d dir (Extension.discover fs dir))
          visit fs .skip d dirs
        else visit fs .skip d dirs).runIn passed = (.ok d', c')) ↔
        passed.passAll? dirs.length = some c' ∧
          d' = (d.append (ofDirectories fs [dir])).append (ofDirectories fs dirs) := by
      split
      · rename_i hmanifest
        rw [Cancellable.runIn_bind_eq_ok, ← ih]
        simp only [Cancellable.runIn_liftExcept_eq_ok, take_eq hmanifest, judge, Except.map,
          Except.ok.injEq]
        constructor
        · rintro ⟨_, _, ⟨rfl, rfl⟩, h⟩
          exact h
        · exact fun h => ⟨_, _, ⟨rfl, rfl⟩, h⟩
      · rename_i hmanifest
        rw [ih, ofDirectories_of_not_hasManifest (by simpa using hmanifest), append_empty]
    constructor
    · rintro ⟨_, passed, hpass, h⟩
      rw [Cancellable.runIn_checkpoint_eq_ok.mp hpass]
      exact (hrest passed).mp h
    · rintro ⟨hpass, hd'⟩
      obtain ⟨passed, hpassed, hpass⟩ := Option.bind_eq_some_iff.mp hpass
      exact ⟨(), passed, Cancellable.runIn_checkpoint_eq_ok.mpr hpassed,
        (hrest passed).mpr ⟨hpass, hd'⟩⟩

/-- The candidates of places, in order. -/
def searched (fs : FileSystem) (root : Path) : List (String × Nat) → Except Failure (List Path)
  | [] => .ok []
  | (place, depth) :: rest => do
    let dirs ← candidates fs (root.child place) depth
    return dirs ++ (← searched fs root rest)

theorem visitPlaces_skip {places : List (String × Nat)} :
    (visitPlaces fs .skip root d places).runIn c = (.ok d', c') ↔
      ∃ dirs, searched fs root places = .ok dirs ∧ c.passAll? dirs.length = some c' ∧
        d' = d.append (ofDirectories fs dirs) := by
  induction places generalizing d c with
  | nil =>
    rw [visitPlaces, Cancellable.runIn_pure_eq_ok]
    constructor
    · rintro ⟨rfl, rfl⟩
      exact ⟨[], rfl, rfl, (append_empty _).symm⟩
    · rintro ⟨dirs, hdirs, hpass, rfl⟩
      cases hdirs
      cases hpass
      exact ⟨append_empty _, rfl⟩
  | cons place places ih =>
    obtain ⟨place, depth⟩ := place
    rw [visitPlaces, searched]
    simp only [Cancellable.runIn_bind_eq_ok, Cancellable.runIn_liftExcept_eq_ok, visit_skip, ih]
    constructor
    · rintro ⟨dirs, _, ⟨hdirs, rfl⟩, _, between, ⟨hpass, rfl⟩, more, hmore, hpass', rfl⟩
      refine ⟨dirs ++ more, by rw [hdirs, hmore]; rfl, ?_, ?_⟩
      · rw [List.length_append, Cancellation.passAll?_add, hpass, Option.bind_some, hpass']
      · rw [append_assoc, ofDirectories_append]
    · rintro ⟨all, hall, hpass, rfl⟩
      obtain ⟨dirs, hdirs, hall⟩ := bind_eq_ok.mp hall
      obtain ⟨more, hmore, ⟨⟩⟩ := bind_eq_ok.mp hall
      rw [List.length_append, Cancellation.passAll?_add] at hpass
      obtain ⟨between, hbetween, hpass⟩ := Option.bind_eq_some_iff.mp hpass
      exact ⟨dirs, c, ⟨hdirs, rfl⟩, _, between, ⟨hbetween, rfl⟩, more, hmore, hpass, by
        rw [append_assoc, ofDirectories_append]⟩

/-- A search that passes over what cannot be loaded ends well when the places can be listed and
the run is not cancelled before the last candidate. -/
theorem findExtensions_skip : (findExtensions fs root .skip).runIn c = (.ok d, c') ↔
    ∃ dirs, searched fs root places = .ok dirs ∧ c.passAll? dirs.length = some c' ∧
      d = ofDirectories fs dirs :=
  visitPlaces_skip

/-! ## Candidates are looked at once -/

section Once

open ExtensionAudit.FileSystem ExtensionAudit.Path

variable (tree : fs.IsTree)

include tree

theorem subdirectories_steps {p : Path} (hp : p.text ≠ []) (h : fs.subdirectories p = .ok dirs) :
    (dirs.map steps).Nodup ∧ ∀ dir ∈ dirs, dir.text ≠ [] ∧
      ∃ name, dir.steps = p.steps ++ [.normal name] := by
  cases hlist : fs.list p with
  | error kind =>
    rw [subdirectories, hlist] at h
    cases kind <;> cases h
    simp
  | ok all =>
    rw [subdirectories, hlist] at h
    cases h
    obtain ⟨⟨l, e⟩, -, hall⟩ := bind_eq_ok.mp hlist
    cases e with
    | directory =>
      cases hall
      -- a name that is listed is one more step, behind those of the directory
      have hjoin {name : Text} (hname : name ∈ fs.namesIn l) :
          (p.join ⟨name⟩).text ≠ [] ∧ (p.join ⟨name⟩).steps = p.steps ++ [.normal name] := by
        have hentry := tree.names_of_mem_namesIn hname
        have hrelative := isAbsolute_of_slash_not_mem hentry.slash
        rw [steps_join hp hrelative, steps_of_name hentry.slash hentry.component]
        exact ⟨text_join_ne_nil hp hrelative, rfl⟩
      constructor
      · rw [((List.mergeSort_perm _ _).map steps).nodup_iff]
        refine List.Nodup.sublist (List.filter_sublist.map steps) ?_
        rw [List.map_map, List.Nodup, List.pairwise_map]
        refine List.Pairwise.imp_of_mem ?_ (tree.nodup_namesIn l)
        intro a b ha hb hab heq
        rw [Function.comp, Function.comp, (hjoin ha).2, (hjoin hb).2] at heq
        simp [hab] at heq
      · intro dir hdir
        obtain ⟨hdir, -⟩ := List.mem_filter.mp (List.mem_mergeSort.mp hdir)
        obtain ⟨name, hname, rfl⟩ := List.mem_map.mp hdir
        exact ⟨(hjoin hname).1, name, (hjoin hname).2⟩
    | file bytes mode => cases hall
    | link target => cases hall

theorem subdirectoriesOfAll_steps {above : List Path} (hnodup : (above.map steps).Nodup)
    (hnamed : ∀ p ∈ above, p.text ≠ []) (h : subdirectoriesOfAll fs above = .ok dirs) :
    (dirs.map steps).Nodup ∧ ∀ dir ∈ dirs, dir.text ≠ [] ∧
      ∃ p ∈ above, ∃ name, dir.steps = p.steps ++ [.normal name] := by
  induction above generalizing dirs with
  | nil =>
    cases h
    simp
  | cons p above ih =>
    obtain ⟨hp, hnodup⟩ := List.nodup_cons.mp hnodup
    obtain ⟨hnamedp, hnamed⟩ := List.forall_mem_cons.mp hnamed
    obtain ⟨here, hhere, h⟩ := bind_eq_ok.mp h
    obtain ⟨more, hmore, ⟨⟩⟩ := bind_eq_ok.mp h
    obtain ⟨hhere, hsteps⟩ := subdirectories_steps tree hnamedp (mapError_eq_ok.mp hhere)
    obtain ⟨hmore, hsteps'⟩ := ih hnodup hnamed hmore
    refine ⟨?_, ?_⟩
    · rw [List.map_append, List.nodup_append]
      refine ⟨hhere, hmore, List.forall_mem_map.mpr fun dir hdir =>
        List.forall_mem_map.mpr fun dir' hdir' heq => ?_⟩
      obtain ⟨-, name, hdir⟩ := hsteps dir hdir
      obtain ⟨-, q, hq, name', hdir'⟩ := hsteps' dir' hdir'
      rw [hdir, hdir'] at heq
      exact hp (List.mem_map.mpr ⟨q, hq, (List.append_inj' heq rfl).1.symm⟩)
    · intro dir hdir
      rcases List.mem_append.mp hdir with hdir | hdir
      · obtain ⟨htext, hname⟩ := hsteps dir hdir
        exact ⟨htext, p, List.mem_cons_self, hname⟩
      · obtain ⟨htext, q, hq, hname⟩ := hsteps' dir hdir
        exact ⟨htext, q, List.mem_cons_of_mem _ hq, hname⟩

theorem descend_steps {depth : Nat} {above : List Path} (hnodup : (above.map steps).Nodup)
    (hnamed : ∀ p ∈ above, p.text ≠ []) (h : descend fs depth above = .ok dirs) :
    (dirs.map steps).Nodup ∧ ∀ dir ∈ dirs, ∃ p ∈ above, p.steps <+: dir.steps := by
  induction depth generalizing above with
  | zero =>
    cases h
    exact ⟨hnodup, fun dir hdir => ⟨dir, hdir, List.prefix_rfl⟩⟩
  | succ depth ih =>
    obtain ⟨found, hfound, h⟩ := bind_eq_ok.mp h
    obtain ⟨hfound, hsteps⟩ := subdirectoriesOfAll_steps tree hnodup hnamed hfound
    obtain ⟨hdirs, hbelow⟩ := ih hfound (fun p hp => (hsteps p hp).1) h
    refine ⟨hdirs, fun dir hdir => ?_⟩
    obtain ⟨q, hq, hqdir⟩ := hbelow dir hdir
    obtain ⟨-, p, hp, name, hname⟩ := hsteps q hq
    exact ⟨p, hp, (hname ▸ List.prefix_append _ _).trans hqdir⟩

omit tree in
/-- A place lies behind the steps to the project, also where the project has an empty path. -/
theorem steps_child (root : Path) {place : String} (htext : (Path.ofString place).text ≠ [])
    (hrelative : (Path.ofString place).isAbsolute = false) : (root.child place).text ≠ [] ∧
      (root.child place).steps = root.steps ++ (Path.ofString place).steps := by
  rw [child]
  by_cases hroot : root.text = []
  · obtain ⟨text⟩ := root
    obtain rfl : text = [] := hroot
    have hjoin : join ⟨[]⟩ (Path.ofString place) = Path.ofString place := by simp [join, hrelative]
    rw [hjoin]
    exact ⟨htext, rfl⟩
  · exact ⟨text_join_ne_nil hroot hrelative, steps_join hroot hrelative⟩

/-- The candidates of places that do not lie in one another are distinct, whatever path leads to
the project. -/
theorem nodup_searched {places : List (String × Nat)}
    (hplaces : ∀ place ∈ places, (Path.ofString place.1).text ≠ [] ∧
      (Path.ofString place.1).isAbsolute = false)
    (hapart : places.Pairwise fun a b =>
      ¬(Path.ofString a.1).steps <+: (Path.ofString b.1).steps ∧
      ¬(Path.ofString b.1).steps <+: (Path.ofString a.1).steps)
    (h : searched fs root places = .ok dirs) :
    (dirs.map steps).Nodup ∧ ∀ dir ∈ dirs, ∃ place ∈ places,
      root.steps ++ (Path.ofString place.1).steps <+: dir.steps := by
  induction places generalizing dirs with
  | nil =>
    cases h
    simp
  | cons place places ih =>
    obtain ⟨⟨htext, hrelative⟩, hplaces⟩ := List.forall_mem_cons.mp hplaces
    obtain ⟨hapart₁, hapart⟩ := List.pairwise_cons.mp hapart
    obtain ⟨here, hhere, h⟩ := bind_eq_ok.mp h
    obtain ⟨more, hmore, ⟨⟩⟩ := bind_eq_ok.mp h
    have hbase := steps_child root htext hrelative
    have hone : ([root.child place.1].map steps).Nodup := List.pairwise_singleton _ _
    obtain ⟨hhere, hbelow⟩ := descend_steps tree hone (by simpa using hbase.1) hhere
    obtain ⟨hmore, hbelow'⟩ := ih hplaces hapart hmore
    simp only [List.mem_singleton, exists_eq_left, hbase.2] at hbelow
    refine ⟨?_, ?_⟩
    · rw [List.map_append, List.nodup_append]
      refine ⟨hhere, hmore, List.forall_mem_map.mpr fun dir hdir =>
        List.forall_mem_map.mpr fun dir' hdir' heq => ?_⟩
      obtain ⟨other, hother, hother'⟩ := hbelow' dir' hdir'
      -- of two places above one directory, one would lie in the other
      rcases List.prefix_or_prefix_of_prefix (heq ▸ hbelow dir hdir) hother' with hin | hin
      · exact (hapart₁ other hother).1 ((List.prefix_append_right_inj _).mp hin)
      · exact (hapart₁ other hother).2 ((List.prefix_append_right_inj _).mp hin)
    · intro dir hdir
      rcases List.mem_append.mp hdir with hdir | hdir
      · exact ⟨place, List.mem_cons_self, hbelow dir hdir⟩
      · obtain ⟨other, hother, hother'⟩ := hbelow' dir hdir
        exact ⟨other, List.mem_cons_of_mem _ hother, hother'⟩

end Once

/-! ## Where candidates are -/

section Locations

open FileSystem

variable (tree : fs.IsTree)

include tree

theorem subdirectoriesOfAll_locations (ls : List Location)
    (hnames : ∀ l ∈ ls, ∀ n ∈ l, IsEntryName n)
    (h : subdirectoriesOfAll fs (ls.map pathOf) = .ok dirs) :
    ∃ ks : List Location, dirs = ks.map pathOf ∧ ∀ k ∈ ks,
      (∃ l ∈ ls, ∃ name, k = l ++ [name]) ∧ (∀ n ∈ k, IsEntryName n) ∧
      fs.isDirectory (pathOf k) = true := by
  induction ls generalizing dirs with
  | nil =>
    cases h
    exact ⟨[], rfl, by simp⟩
  | cons l ls ih =>
    obtain ⟨hnamel, hnames⟩ := List.forall_mem_cons.mp hnames
    rw [List.map_cons, subdirectoriesOfAll] at h
    obtain ⟨found, hfound, h⟩ := bind_eq_ok.mp h
    obtain ⟨more, hmore, ⟨⟩⟩ := bind_eq_ok.mp h
    obtain ⟨names, rfl, hentries⟩ :=
      tree.subdirectories_eq_ok hnamel (mapError_eq_ok.mp hfound)
    obtain ⟨ks, rfl, hplaced⟩ := ih hnames hmore
    refine ⟨names.map (l ++ [·]) ++ ks, by simp, ?_⟩
    intro k hk
    rcases List.mem_append.mp hk with hk | hk
    · obtain ⟨name, hname, rfl⟩ := List.mem_map.mp hk
      obtain ⟨hentry, hdir⟩ := hentries name hname
      exact ⟨⟨l, List.mem_cons_self, name, rfl⟩, hentry.concat hnamel, hdir⟩
    · obtain ⟨⟨l', hl', hk'⟩, hrest⟩ := hplaced k hk
      exact ⟨⟨l', List.mem_cons_of_mem _ hl', hk'⟩, hrest⟩

theorem descend_locations {depth : Nat} (ls : List Location)
    (hnames : ∀ l ∈ ls, ∀ n ∈ l, IsEntryName n)
    (hdirs : depth = 0 → ∀ l ∈ ls, fs.isDirectory (pathOf l) = true)
    (h : descend fs depth (ls.map pathOf) = .ok dirs) :
    ∃ ks : List Location, dirs = ks.map pathOf ∧ ∀ k ∈ ks,
      (∃ l ∈ ls, l <+: k) ∧ (∀ n ∈ k, IsEntryName n) ∧ fs.isDirectory (pathOf k) = true := by
  induction depth generalizing ls with
  | zero =>
    cases h
    exact ⟨ls, rfl, fun l hl => ⟨⟨l, hl, List.prefix_rfl⟩, hnames l hl, hdirs rfl l hl⟩⟩
  | succ depth ih =>
    obtain ⟨found, hfound, h⟩ := bind_eq_ok.mp h
    obtain ⟨ms, rfl, hplaced⟩ := subdirectoriesOfAll_locations tree ls hnames hfound
    obtain ⟨ks, rfl, hbelow⟩ := ih ms (fun m hm => (hplaced m hm).2.1)
      (fun _ m hm => (hplaced m hm).2.2) h
    refine ⟨ks, rfl, fun k hk => ?_⟩
    obtain ⟨⟨m, hm, hmk⟩, hrest⟩ := hbelow k hk
    obtain ⟨⟨l, hl, name, rfl⟩, -⟩ := hplaced m hm
    exact ⟨⟨l, hl, (List.prefix_append l _).trans hmk⟩, hrest⟩

/-- The candidates of places are directories at locations below their places. -/
theorem searched_locations {r : Location} {places : List (String × Nat)}
    (hr : ∀ n ∈ r, IsEntryName n)
    (hplaces : ∀ place ∈ places, place.2 ≠ 0 ∧ (Path.ofString place.1).isAbsolute = false ∧
      ∀ n ∈ (Path.ofString place.1).pieces, IsEntryName n)
    (h : searched fs (pathOf r) places = .ok dirs) :
    ∃ ks : List Location, dirs = ks.map pathOf ∧ ∀ k ∈ ks,
      (∃ place ∈ places, r ++ (Path.ofString place.1).pieces <+: k) ∧
      (∀ n ∈ k, IsEntryName n) ∧ fs.isDirectory (pathOf k) = true := by
  induction places generalizing dirs with
  | nil =>
    cases h
    exact ⟨[], rfl, by simp⟩
  | cons place places ih =>
    obtain ⟨⟨hdepth, hrelative, hentries⟩, hplaces⟩ := List.forall_mem_cons.mp hplaces
    rw [searched] at h
    obtain ⟨found, hfound, h⟩ := bind_eq_ok.mp h
    obtain ⟨more, hmore, ⟨⟩⟩ := bind_eq_ok.mp h
    rw [Path.child, join_pathOf hr hrelative, candidates] at hfound
    have hbase : ∀ n ∈ r ++ (Path.ofString place.1).pieces, IsEntryName n :=
      List.forall_mem_append.mpr ⟨hr, hentries⟩
    obtain ⟨ks, rfl, hbelow⟩ := descend_locations tree
      [r ++ (Path.ofString place.1).pieces] (by simpa using hbase)
      (fun h0 => absurd h0 hdepth) hfound
    obtain ⟨ms, rfl, hplaced⟩ := ih hplaces hmore
    refine ⟨ks ++ ms, by simp, ?_⟩
    intro k hk
    rcases List.mem_append.mp hk with hk | hk
    · obtain ⟨⟨l, hl, hlk⟩, hrest⟩ := hbelow k hk
      obtain rfl := List.mem_singleton.mp hl
      exact ⟨⟨place, List.mem_cons_self, hlk⟩, hrest⟩
    · obtain ⟨⟨other, hother, hotherk⟩, hrest⟩ := hplaced k hk
      exact ⟨⟨other, List.mem_cons_of_mem _ hother, hotherk⟩, hrest⟩

end Locations

end Discovery

end ExtensionAudit
