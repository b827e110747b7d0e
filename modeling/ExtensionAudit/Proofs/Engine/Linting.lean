import ExtensionAudit.Php.Lint
import ExtensionAudit.Proofs.Files.Pruning
/-
  What a linter looks at. The check of a directory is local when it depends only on
  what is listed below the directory. A linter that runs interpreters is local when
  each of them looks at the file that it is given.

  Main statement: `Interpreter.linter_isLocal`.
-/

namespace ExtensionAudit

open FileSystem

/-- Two file systems list the same at a location and below it. -/
def ListSame (base : Location) (fs fs' : FileSystem) : Prop :=
  (fs'.entries.filter fun p => base.isPrefixOf p.1) = fs.entries.filter fun p => base.isPrefixOf p.1

/-- The answer for a directory depends only on what is listed below it. -/
def Linter.IsLocal (l : Linter) : Prop :=
  ∀ (fs fs' : FileSystem) (php : String) (dir : Path) (base : Location), fs.IsTree → fs'.IsTree →
    fs.resolve false dir = .ok (.found base .directory) →
    fs'.resolve false dir = .ok (.found base .directory) → ListSame base fs fs' →
    l.check fs' php dir = l.check fs php dir

namespace ListSame

variable {fs fs' : FileSystem} {base : Location} {names : List Text} {dir file : Path}

theorem get? (h : ListSame base fs fs') : fs'.get? (base ++ names) = fs.get? (base ++ names) := by
  have hkeep : base.isPrefixOf (base ++ names) = true :=
    List.isPrefixOf_iff_prefix.mpr (List.prefix_append base names)
  have hfind (t : List (Location × Entry)) : find? (base ++ names) t =
      find? (base ++ names) (t.filter fun p => base.isPrefixOf p.1) := by
    rw [find?_filter (f := fun k => base.isPrefixOf k), if_pos hkeep]
  unfold FileSystem.get?
  rw [hfind, h, ← hfind]

theorem filesInside (h : ListSame base fs fs') (skip : Text → Bool) (p : Path) :
    fs'.filesInside skip p base = fs.filesInside skip p base := by
  -- what is listed elsewhere is not below the location
  have hfilter (fs : FileSystem) :
      { fs with entries := fs.entries.filter fun q => base.isPrefixOf q.1 }.filesInside skip p base =
        fs.filesInside skip p base :=
    filesInside_filter (f := fun k => base.isPrefixOf k) fun names =>
      List.isPrefixOf_iff_prefix.mpr (List.prefix_append base names)
  rw [← hfilter fs', h, ← hfilter fs]
  rfl

theorem readBytes (h : ListSame base fs fs') (tree : fs.IsTree) (tree' : fs'.IsTree)
    (hdir : fs.resolve true dir = .ok (.found base .directory))
    (hdir' : fs'.resolve true dir = .ok (.found base .directory)) {skip : Text → Bool}
    (hfile : file ∈ fs.filesInside skip dir base) : fs'.readBytes file = fs.readBytes file := by
  obtain ⟨names, _, _, hne, hmem, -, rfl⟩ := mem_filesInside.mp hfile
  have hget := tree.get?_of_mem hmem (by simp [hne])
  have htarget : fs'.target (names.foldl (fun q name => q.join ⟨name⟩) dir) =
      fs.target (names.foldl (fun q name => q.join ⟨name⟩) dir) := by
    cases hstart : fs.start (names.foldl (fun q name => q.join ⟨name⟩) dir) with
    | error kind =>
      unfold FileSystem.target
      rw [resolve_of_start_error hstart, resolve_of_start_error (start_eq_error hstart)]
    | ok here =>
      obtain ⟨htext, hzero, hsize, -⟩ := start_eq_ok_iff.mp hstart
      have hstart' : fs'.start (names.foldl (fun q name => q.join ⟨name⟩) dir) = .ok _ :=
        start_eq_ok_iff.mpr ⟨htext, hzero, hsize, rfl⟩
      unfold FileSystem.target
      rw [tree.resolve_foldl_join hdir hne hget (by simp) hstart,
        tree'.resolve_foldl_join hdir' hne (h.get?.trans hget) (by simp) hstart']
  unfold FileSystem.readBytes
  rw [htarget]

end ListSame

namespace Interpreter

theorem mem_of_firstUsable {version : String} {programs : List Interpreter}
    {lint : FileSystem → Path → InterpreterOutput} (h : firstUsable version programs = .ok lint) :
    usable lint ∈ programs := by
  induction programs with
  | nil => cases h
  | cons program programs ih =>
    cases program with
    | usable other =>
      cases h
      exact List.mem_cons_self
    | refused kind => cases h
    | missing => exact List.mem_cons_of_mem _ (ih h)
    | unusable => exact List.mem_cons_of_mem _ (ih h)

/-- A linter that runs interpreters is local when each of them looks at the file that it is given
and at no other. -/
theorem linter_isLocal {find : String → List Interpreter}
    (hfind : ∀ version lint, usable lint ∈ find version → ∀ fs fs' file,
      FileSystem.readBytes fs' file = FileSystem.readBytes fs file → lint fs' file = lint fs file) :
    (linter find).IsLocal := by
  intro fs fs' php dir base tree tree' hdir hdir' hsame
  have hthrough {fs : FileSystem} (h : fs.resolve false dir = .ok (.found base .directory)) :
      fs.resolve true dir = .ok (.found base .directory) := resolve_true h (by simp)
  have hbelow : fs'.filesBelow isSkipped dir = fs.filesBelow isSkipped dir := by
    unfold filesBelow
    rw [hdir, hdir']
    dsimp only
    rw [hsame.filesInside]
  have hfiles : phpFiles fs' dir = phpFiles fs dir := by
    unfold phpFiles
    rw [hbelow]
  -- what is linted lies below the directory, where the two file systems hold the same
  have hlisted {files : List Path} (h : phpFiles fs dir = .ok files) :
      ∀ file ∈ files, file ∈ fs.filesInside isSkipped dir base := by
    obtain ⟨all, hall, ⟨⟩⟩ := bind_eq_ok.mp h
    intro file hfile
    have hmem := (List.mem_filter.mp (List.mem_mergeSort.mp hfile)).1
    have hall := mapError_eq_ok.mp hall
    unfold filesBelow at hall
    rw [hdir] at hall
    cases hall
    split at hmem
    · cases hmem
    · exact hmem
  show checkSources find fs' php dir = checkSources find fs php dir
  unfold checkSources
  rw [hfiles]
  cases hphp : phpFiles fs dir with
  | error failure => rfl
  | ok files =>
    dsimp only [bind, Except.bind]
    split
    · rfl
    · cases husable : firstUsable php (find php) with
      | error failure => rfl
      | ok lint =>
        have herrors : files.flatMap (errorsIn lint fs' dir) = files.flatMap (errorsIn lint fs dir) := by
          rw [List.flatMap_def, List.flatMap_def]
          congr 1
          apply List.map_congr_left
          intro file hfile
          rw [errorsIn, errorsIn, hfind php lint (mem_of_firstUsable husable) fs fs' file
            (hsame.readBytes tree tree' (hthrough hdir) (hthrough hdir') (hlisted hphp file hfile))]
        simp only [herrors]

end Interpreter

end ExtensionAudit
