import ExtensionAudit.Extension.Project
import ExtensionAudit.Proofs.Files.PathOrder
/-
  The directories at one depth. The directories in one directory are sorted by
  themselves; as all directories of a level have one number of components, what is
  below an earlier one stays in front of what is below a later one, and the whole
  level is in order. Going down a level keeps this, and a level has the directories
  that so many steps down from the place reach, each once.

  Main statement: `Discovery.candidates_level`.
-/

namespace ExtensionAudit

namespace FileSystem

open ExtensionAudit.Path

variable {fs : FileSystem} {p above dir base : Path} {dirs : List Path} {l : Location} {n : Nat}

/-- A directory that a directory holds: one of its entries, where that leads to a directory. -/
def HoldsDirectory (fs : FileSystem) (above dir : Path) : Prop :=
  ∃ l name, fs.target above = .ok (l, .directory) ∧ (fs.get? (l ++ [name])).isSome = true ∧
    dir = above.join ⟨name⟩ ∧ fs.isDirectory dir = true

/-- A path reached by a number of steps, each to a directory that the one before holds. -/
inductive Descends (fs : FileSystem) : Nat → Path → Path → Prop where
  | here (p : Path) : Descends fs 0 p p
  | down {n : Nat} {above below dir : Path} : fs.HoldsDirectory above below →
      Descends fs n below dir → Descends fs (n + 1) above dir

theorem Descends.isDirectory (h : fs.Descends n base dir)
    (hbase : 0 < n ∨ fs.isDirectory base = true) : fs.isDirectory dir = true := by
  induction h with
  | here p => exact hbase.resolve_left (Nat.lt_irrefl 0)
  | down hfirst _ ih =>
    obtain ⟨_, _, -, -, -, hdir⟩ := hfirst
    exact ih (.inr hdir)

theorem descends_zero : fs.Descends 0 base dir ↔ dir = base := by
  constructor
  · rintro ⟨⟩
    rfl
  · rintro rfl
    exact .here _

theorem descends_succ : fs.Descends (n + 1) base dir ↔
    ∃ below, fs.HoldsDirectory base below ∧ fs.Descends n below dir := by
  constructor
  · rintro (_ | ⟨hfirst, hrest⟩)
    exact ⟨_, hfirst, hrest⟩
  · rintro ⟨_, hfirst, hrest⟩
    exact .down hfirst hrest

/-! ## One directory -/

theorem subdirectories_of_isMissing (h : fs.isMissing p = true) : fs.subdirectories p = .ok [] := by
  unfold subdirectories list
  rw [isMissing_iff.mp h]
  rfl

section Trees

variable (tree : fs.IsTree)

include tree

theorem IsTree.mem_namesIn_iff {name : Text} :
    name ∈ fs.namesIn l ↔ (fs.get? (l ++ [name])).isSome = true := by
  rw [mem_namesIn]
  constructor
  · rintro ⟨e, hmem⟩
    simp [tree.get?_of_mem hmem]
  · intro hsome
    obtain ⟨e, he⟩ := Option.isSome_iff_exists.mp hsome
    exact ⟨e, mem_of_get? he (by simp)⟩

/-- A directory has the name of an entry behind the components of the one that holds it. -/
theorem IsTree.components_of_holdsDirectory (h : fs.HoldsDirectory above dir) :
    ∃ name, dir.components = above.components ++ [.normal name] := by
  obtain ⟨l, name, htarget, hsome, rfl, -⟩ := h
  have hentry := tree.names_of_mem_namesIn (tree.mem_namesIn_iff.mpr hsome)
  exact ⟨name, components_join_name (text_ne_nil_of_target htarget) hentry.slash hentry.component⟩

theorem IsTree.mem_subdirectories (h : fs.subdirectories p = .ok dirs) :
    dir ∈ dirs ↔ fs.HoldsDirectory p dir := by
  rcases target_of_subdirectories h with ⟨htarget, rfl⟩ | ⟨l, htarget, rfl⟩
  · constructor
    · nofun
    · rintro ⟨l, name, hfound, -⟩
      rw [htarget] at hfound
      cases hfound
  · rw [List.mem_mergeSort, List.mem_filter, List.mem_map]
    constructor
    · rintro ⟨⟨name, hname, rfl⟩, hdir⟩
      exact ⟨l, name, htarget, tree.mem_namesIn_iff.mp hname, rfl, hdir⟩
    · rintro ⟨k, name, hfound, hsome, rfl, hdir⟩
      obtain ⟨rfl, -⟩ := Prod.mk.inj (Except.ok.inj (htarget.symm.trans hfound))
      exact ⟨⟨name, tree.mem_namesIn_iff.mpr hsome, rfl⟩, hdir⟩

theorem IsTree.pairwise_subdirectories (h : fs.subdirectories p = .ok dirs) :
    dirs.Pairwise IsBefore := by
  rcases target_of_subdirectories h with ⟨-, rfl⟩ | ⟨l, htarget, rfl⟩
  · exact .nil
  · have hp := text_ne_nil_of_target htarget
    -- the names are distinct, so the components are
    have hdistinct : (((fs.namesIn l).map fun name => p.join ⟨name⟩).filter fs.isDirectory).Pairwise
        fun q q' => q.components ≠ q'.components := by
      refine List.Pairwise.filter _ (List.pairwise_map.mpr ?_)
      refine List.Pairwise.imp_of_mem ?_ (tree.nodup_namesIn l)
      intro a b ha hb hab heq
      have ha := tree.names_of_mem_namesIn ha
      have hb := tree.names_of_mem_namesIn hb
      rw [components_join_name hp ha.slash ha.component,
        components_join_name hp hb.slash hb.component] at heq
      simp [hab] at heq
    have hsorted := List.pairwise_mergeSort Path.le_trans Path.le_total
      (((fs.namesIn l).map fun name => p.join ⟨name⟩).filter fs.isDirectory)
    have hdistinct := hdistinct.perm (List.mergeSort_perm _ Path.le).symm fun h => Ne.symm h
    exact (hsorted.and hdistinct).imp fun hboth => isBefore_iff.mpr hboth

end Trees

end FileSystem

/-! ## One level -/

namespace Discovery

open ExtensionAudit.FileSystem ExtensionAudit.Path

variable {fs : FileSystem} {base : Path} {above dirs : List Path} {depth n : Nat}

/-- Directories of one level: in order, each once, and with one number of components. -/
structure IsLevel (n : Nat) (dirs : List Path) : Prop where
  pairwise : dirs.Pairwise IsBefore
  length : ∀ dir ∈ dirs, dir.components.length = n

theorem mem_subdirectoriesOfAll (tree : fs.IsTree) (h : subdirectoriesOfAll fs above = .ok dirs)
    (dir : Path) : dir ∈ dirs ↔ ∃ p ∈ above, fs.HoldsDirectory p dir := by
  induction above generalizing dirs with
  | nil =>
    cases h
    simp
  | cons p above ih =>
    obtain ⟨here, hhere, h⟩ := bind_eq_ok.mp h
    obtain ⟨more, hmore, ⟨⟩⟩ := bind_eq_ok.mp h
    rw [List.mem_append, tree.mem_subdirectories (mapError_eq_ok.mp hhere), ih hmore]
    simp

theorem IsLevel.subdirectoriesOfAll (tree : fs.IsTree) (hlevel : IsLevel n above)
    (h : subdirectoriesOfAll fs above = .ok dirs) : IsLevel (n + 1) dirs := by
  constructor
  · induction above generalizing dirs with
    | nil =>
      cases h
      exact .nil
    | cons p above ih =>
      obtain ⟨hfirst, hrest⟩ := List.pairwise_cons.mp hlevel.pairwise
      obtain ⟨hp, hlength⟩ := List.forall_mem_cons.mp hlevel.length
      obtain ⟨here, hhere, h⟩ := bind_eq_ok.mp h
      obtain ⟨more, hmore, ⟨⟩⟩ := bind_eq_ok.mp h
      have hhere := mapError_eq_ok.mp hhere
      refine List.pairwise_append.mpr
        ⟨tree.pairwise_subdirectories hhere, ih ⟨hrest, hlength⟩ hmore, ?_⟩
      -- below an earlier directory and below a later one
      intro dir hdir dir' hdir'
      obtain ⟨name, hname⟩ :=
        tree.components_of_holdsDirectory ((tree.mem_subdirectories hhere).mp hdir)
      obtain ⟨q, hq, hholds⟩ := (mem_subdirectoriesOfAll tree hmore dir').mp hdir'
      obtain ⟨name', hname'⟩ := tree.components_of_holdsDirectory hholds
      have hsame : p.components.length = q.components.length := by rw [hp, hlength q hq]
      exact (hfirst q hq).of_front hsame hname hname'
  · intro dir hdir
    obtain ⟨p, hp, hholds⟩ := (mem_subdirectoriesOfAll tree h dir).mp hdir
    obtain ⟨name, hname⟩ := tree.components_of_holdsDirectory hholds
    rw [hname, List.length_append, hlevel.length p hp]
    rfl

/-! ## All levels -/

/-- Going down keeps the directories in order, and reaches those that so many steps reach. -/
theorem IsLevel.descend (tree : fs.IsTree) (hlevel : IsLevel n above)
    (h : descend fs depth above = .ok dirs) : IsLevel (n + depth) dirs ∧
      ∀ dir, dir ∈ dirs ↔ ∃ p ∈ above, fs.Descends depth p dir := by
  induction depth generalizing n above with
  | zero =>
    cases h
    exact ⟨hlevel, fun dir => by simp [descends_zero]⟩
  | succ depth ih =>
    obtain ⟨next, hnext, h⟩ := bind_eq_ok.mp h
    obtain ⟨hdirs, hmem⟩ := ih (hlevel.subdirectoriesOfAll tree hnext) h
    refine ⟨by rwa [Nat.add_right_comm] at hdirs, fun dir => ?_⟩
    rw [hmem]
    constructor
    · rintro ⟨below, hbelow, hsteps⟩
      obtain ⟨p, hp, hholds⟩ := (mem_subdirectoriesOfAll tree hnext below).mp hbelow
      exact ⟨p, hp, .down hholds hsteps⟩
    · rintro ⟨p, hp, hsteps⟩
      obtain ⟨below, hholds, hsteps⟩ := descends_succ.mp hsteps
      exact ⟨below, (mem_subdirectoriesOfAll tree hnext below).mpr ⟨p, hp, hholds⟩, hsteps⟩

theorem subdirectoriesOfAll_filter (above : List Path) :
    subdirectoriesOfAll fs (above.filter fun p => !fs.isMissing p) =
      subdirectoriesOfAll fs above := by
  induction above with
  | nil => rfl
  | cons p above ih =>
    by_cases hmissing : fs.isMissing p = true
    · rw [List.filter_cons, if_neg (by simp [hmissing]), ih, subdirectoriesOfAll,
        subdirectories_of_isMissing hmissing]
      cases subdirectoriesOfAll fs above <;> rfl
    · rw [List.filter_cons, if_pos (by simpa using hmissing), subdirectoriesOfAll, ih,
        subdirectoriesOfAll]

/-- The candidates of a place are in order, each once, and they are the directories that exactly
so many steps reach, over links to directories as well; a directory of any level that is missing
contributes nothing. Without a step the place itself is the candidate, which has to be a
directory then. -/
theorem candidates_level (tree : fs.IsTree) (hbase : 0 < depth ∨ fs.isDirectory base = true)
    (h : candidates fs base depth = .ok dirs) :
    dirs.Pairwise IsBefore ∧
      (∀ p, p ∈ dirs ↔ fs.isDirectory p = true ∧ fs.Descends depth base p) ∧
      ∀ (n : Nat) (level : List Path),
        descend fs (n + 1) level = descend fs (n + 1) (level.filter fun p => !fs.isMissing p) := by
  have hlevel : IsLevel base.components.length [base] :=
    ⟨List.pairwise_singleton _ _, fun dir hdir => by rw [List.mem_singleton.mp hdir]⟩
  obtain ⟨hdirs, hmem⟩ := hlevel.descend tree h
  refine ⟨hdirs.pairwise, fun p => ?_, fun n level => ?_⟩
  · rw [hmem]
    constructor
    · rintro ⟨q, hq, hsteps⟩
      rw [List.mem_singleton.mp hq] at hsteps
      exact ⟨hsteps.isDirectory hbase, hsteps⟩
    · exact fun ⟨_, hsteps⟩ => ⟨base, List.mem_singleton_self base, hsteps⟩
  · rw [descend, descend, subdirectoriesOfAll_filter]

/-- What is below `a` comes in front of what is below `a-b`, though a dash is smaller than a
slash. -/
def Sample.places : FileSystem :=
  ⟨[(["vendor".toList], .directory),
    (["vendor".toList, "a".toList], .directory),
    (["vendor".toList, "a".toList, "notes".toList], .file .empty false),
    (["vendor".toList, "a".toList, "two".toList], .link (.ofString "../a-b")),
    (["vendor".toList, "a-b".toList], .directory),
    (["vendor".toList, "a-b".toList, "one".toList], .directory),
    (["vendor".toList, "gone".toList], .link (.ofString "nowhere"))], []⟩

theorem candidates_level_vendor : Sample.places.IsTree ∧
    candidates Sample.places (.ofString "/vendor") 2 =
      .ok [.ofString "/vendor/a/two", .ofString "/vendor/a-b/one"] ∧
    [Path.ofString "/vendor/a/two", .ofString "/vendor/a-b/one"].Pairwise IsBefore ∧
    ∀ p, p ∈ [Path.ofString "/vendor/a/two", .ofString "/vendor/a-b/one"] ↔
      Sample.places.isDirectory p = true ∧
        Sample.places.Descends 2 (.ofString "/vendor") p := by
  have tree : Sample.places.IsTree := by decide +kernel
  -- where a listing is in order, sorting leaves it
  have hlisted {dir : Path} {ps : List Path}
      (h : (Sample.places.list dir).toOption.any
        (fun qs => qs.filter Sample.places.isDirectory = ps) = true)
      (hsorted : ps.Pairwise fun q r => q.le r = true) :
      Sample.places.subdirectories dir = .ok ps := by
    obtain ⟨qs, hqs, heq⟩ := exists_ok_of_any h
    rw [subdirectories, hqs]
    simp only [of_decide_eq_true heq, List.mergeSort_of_pairwise hsorted]
  have hvendor : Sample.places.subdirectories (.ofString "/vendor") =
      .ok [.ofString "/vendor/a", .ofString "/vendor/a-b"] :=
    hlisted (by decide +kernel) (by decide +kernel)
  have hfirst : Sample.places.subdirectories (.ofString "/vendor/a") =
      .ok [.ofString "/vendor/a/two"] :=
    hlisted (by decide +kernel) (by decide +kernel)
  have hsecond : Sample.places.subdirectories (.ofString "/vendor/a-b") =
      .ok [.ofString "/vendor/a-b/one"] :=
    hlisted (by decide +kernel) (by decide +kernel)
  have hfound : candidates Sample.places (.ofString "/vendor") 2 =
      .ok [.ofString "/vendor/a/two", .ofString "/vendor/a-b/one"] := by
    simp only [candidates, descend, subdirectoriesOfAll, hvendor]
    show (do descend Sample.places 1 [.ofString "/vendor/a", .ofString "/vendor/a-b"]) = _
    simp only [descend, subdirectoriesOfAll, hfirst, hsecond]
    rfl
  have hlevel := candidates_level tree (.inl (by decide)) hfound
  exact ⟨tree, hfound, hlevel.1, hlevel.2.1⟩

end Discovery

end ExtensionAudit
