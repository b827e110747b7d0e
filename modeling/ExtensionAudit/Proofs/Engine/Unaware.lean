import ExtensionAudit.Engine.Validate
import ExtensionAudit.Proofs.Engine.Linting
import ExtensionAudit.Proofs.Engine.Runs
import ExtensionAudit.Proofs.Files.Outside
/-
  Runs that do not see a directory. A run over directories beside `D` has the same
  result with `D` and without it, reads and writes the same, and leaves what is at
  `D` as it was.

  Main statement: `Unaware.examine`.
-/

namespace ExtensionAudit

open FileSystem

def World.prune (D : Location) (w : World) : World := { w with fs := w.fs.prune D }

/-- A run from a world and a run from the world without `D`: they end with the same result, and in
worlds that differ by `D` as well. -/
structure Unaware (D : Location) (old : FileSystem) (w : World) {α : Type} (run run' : Run α)
    (P : α → World → Prop) : Prop where
  same : run'.runIn (w.prune D) = ((run.runIn w).1, (run.runIn w).2.prune D)
  files : Prunes D old (run.runIn w).2.fs ((run.runIn w).2.fs.prune D)
  result : ∀ a, (run.runIn w).1 = .ok a → P a (run.runIn w).2

namespace Unaware

open Run (runIn_bind runIn_get runIn_modify)

variable {D : Location} {old : FileSystem} {w : World} {α β : Type} {run run' : Run α}
  {f f' : α → Run β} {P : α → World → Prop} {P' : β → World → Prop}

theorem pure {a : α} (h : Prunes D old w.fs (w.fs.prune D)) (ha : P a w) :
    Unaware D old w (pure a) (pure a) P := by
  refine ⟨rfl, h, ?_⟩
  rintro b ⟨⟩
  exact ha

theorem throw {e : Failure} (h : Prunes D old w.fs (w.fs.prune D)) :
    Unaware D old w (throw e : Run α) (throw e) P :=
  ⟨rfl, h, fun _ => nofun⟩

/-- One run after another, from wherever the first one ends. -/
theorem bind (h : Unaware D old w run run' P)
    (hf : ∀ a after, P a after → Prunes D old after.fs (after.fs.prune D) →
      Unaware D old after (f a) (f' a) P') :
    Unaware D old w (run >>= f) (run' >>= f') P' := by
  obtain ⟨hsame, hfiles, hresult⟩ := h
  cases hrun : run.runIn w with
  | mk result after =>
    rw [hrun] at hsame hfiles hresult
    cases result with
    | error e =>
      refine ⟨?_, ?_, ?_⟩
      · rw [runIn_bind, runIn_bind, hsame, hrun]
      · rw [runIn_bind, hrun]
        exact hfiles
      · rw [runIn_bind, hrun]
        exact fun _ => nofun
    | ok a =>
      obtain ⟨hsame', hfiles', hresult'⟩ := hf a after (hresult a rfl) hfiles
      refine ⟨?_, ?_, ?_⟩
      · rw [runIn_bind, runIn_bind, hsame, hrun]
        exact hsame'
      · rw [runIn_bind, hrun]
        exact hfiles'
      · rw [runIn_bind, hrun]
        exact hresult'

/-- What follows on a look at the world sees one with `D` or one without it. -/
theorem get_bind {f f' : World → Run β} (h : Unaware D old w (f w) (f' (w.prune D)) P') :
    Unaware D old w (get >>= f) (get >>= f') P' := by
  obtain ⟨hsame, hfiles, hresult⟩ := h
  refine ⟨?_, ?_, ?_⟩
  · rw [runIn_bind, runIn_bind, runIn_get, runIn_get]
    exact hsame
  · rw [runIn_bind, runIn_get]
    exact hfiles
  · rw [runIn_bind, runIn_get]
    exact hresult

theorem modify {g : World → World} (hprune : g (w.prune D) = (g w).prune D)
    (h : Prunes D old (g w).fs ((g w).fs.prune D)) :
    Unaware D old w (modify g : Run Unit) (modify g) fun _ after => after = g w := by
  refine ⟨?_, h, fun _ _ => rfl⟩
  rw [runIn_modify, runIn_modify, hprune]

theorem ofCancellable (step : Cancellable α) (h : Prunes D old w.fs (w.fs.prune D)) :
    Unaware D old w (Run.ofCancellable step) (Run.ofCancellable step)
      fun _ after => after.fs = w.fs :=
  ⟨rfl, h, fun _ _ => rfl⟩

theorem cancelIf (asked : Bool) (h : Prunes D old w.fs (w.fs.prune D)) :
    Unaware D old w (Run.cancelIf asked) (Run.cancelIf asked) fun _ after => after.fs = w.fs := by
  cases asked with
  | true => exact ⟨rfl, h, fun _ _ => rfl⟩
  | false => exact ⟨rfl, h, fun _ _ => rfl⟩

/-- What is read is the same with and without `D`. -/
theorem reading {g : FileSystem → Except Failure α} (hg : g (w.fs.prune D) = g w.fs)
    (h : Prunes D old w.fs (w.fs.prune D)) :
    Unaware D old w (Run.reading g) (Run.reading g) fun a after => after = w ∧ g w.fs = .ok a := by
  refine ⟨?_, h, fun a ha => ⟨rfl, ha⟩⟩
  show (g (w.fs.prune D), w.prune D) = (g w.fs, w.prune D)
  rw [hg]

/-! ## Templates -/

theorem treat {fs fs' : FileSystem} {file : Path} (h : Prunes D old fs fs') (hfile : file.Beside D)
    (hD : D ≠ []) (process : WritingProcess) (entries : List RegistryEntry) (mode : Mode)
    (root : Path) :
    let t := Template.treat process entries mode root fs file
    ∃ after, Template.treat process entries mode root fs' file = { t with fs := after } ∧
      Prunes D old t.fs after := by
  unfold Template.treat
  rw [h.readText hfile.avoids]
  cases fs.readText file with
  | error kind => exact ⟨fs', rfl, h⟩
  | ok source =>
    dsimp only
    cases Markup.Document.parse source with
    | error e => exact ⟨fs', rfl, h⟩
    | ok d =>
      cases mode with
      | check => exact ⟨fs', rfl, h⟩
      | fix =>
        dsimp only
        unfold Template.fix
        -- the migrations see the tree alone, so both ways go on with one result
        generalize Template.fixAll entries d.nodes false = x
        obtain ⟨result, cancels⟩ := x
        rcases result with ⟨id, failure⟩ | ⟨nodes, _ | _⟩
        · exact ⟨fs', rfl, h⟩
        · exact ⟨fs', rfl, h⟩
        · obtain ⟨hfiles, hfailure⟩ :=
            h.writeText hfile hD (Markup.Document.mk nodes).render process
          dsimp only
          generalize fs.writeText file (Markup.Document.mk nodes).render process = x
            at hfiles hfailure ⊢
          generalize fs'.writeText file (Markup.Document.mk nodes).render process = y
            at hfiles hfailure ⊢
          obtain ⟨x, failed⟩ := x
          obtain ⟨y, failed'⟩ := y
          obtain rfl : failed' = failed := hfailure
          cases failed' with
          | none => exact ⟨y, rfl, hfiles⟩
          | some failure => exact ⟨y, rfl, hfiles⟩

theorem visitFiles {files : List Path} (hD : D ≠ []) (hfiles : ∀ file ∈ files, file.Beside D)
    (process : WritingProcess) (entries : List RegistryEntry) (mode : Mode) (root : Path)
    (done : Outcome) (h : Prunes D old w.fs (w.fs.prune D)) :
    Unaware D old w (Run.visitFiles process entries mode root done files)
      (Run.visitFiles process entries mode root done files) fun _ _ => True := by
  induction files generalizing w done with
  | nil => exact .pure h trivial
  | cons file files ih =>
    obtain ⟨hfile, hfiles⟩ := List.forall_mem_cons.mp hfiles
    unfold Run.visitFiles
    refine (ofCancellable _ h).bind fun _ w _ h => ?_
    refine .get_bind ?_
    -- both runs treat the file in their own file system, and go on in the one that is left
    obtain ⟨after, htreat, hafter⟩ := treat h hfile hD process entries mode root
    have htreat' : Template.treat process entries mode root (w.prune D).fs file =
        { Template.treat process entries mode root w.fs file with fs := after } := htreat
    rw [htreat']
    generalize Template.treat process entries mode root w.fs file = t at hafter ⊢
    have hprune : Prunes D old t.fs (t.fs.prune D) := hafter.eq ▸ hafter
    refine Unaware.bind (P := fun _ next => next = { w with fs := t.fs })
      ⟨?_, hprune, fun _ _ => rfl⟩ ?_
    · rw [runIn_modify, runIn_modify, hafter.eq]
      rfl
    · rintro _ _ rfl h
      exact (cancelIf t.cancels h).bind fun _ w _ h => ih hfiles _ h

theorem migrate {files : List Path} (hD : D ≠ []) (hfiles : ∀ file ∈ files, file.Beside D)
    (s : Setup) (root : Path) (a : Area) (v : Version) (mode : Mode)
    (h : Prunes D old w.fs (w.fs.prune D)) :
    Unaware D old w (Run.migrate s root a v files mode) (Run.migrate s root a v files mode)
      fun _ _ => True := by
  unfold Run.migrate
  split
  · exact .pure h trivial
  · exact visitFiles hD hfiles _ _ _ _ _ h

theorem filesOfAll {fs fs' : FileSystem} {dirs : List Path} (h : Prunes D old fs fs')
    (hdirs : ∀ dir ∈ dirs, dir.Beside D) :
    Template.filesOfAll fs' dirs = Template.filesOfAll fs dirs ∧
      ∀ files, Template.filesOfAll fs dirs = .ok files → ∀ file ∈ files, file.Beside D := by
  induction dirs with
  | nil =>
    refine ⟨rfl, ?_⟩
    rintro files ⟨⟩
    simp
  | cons dir dirs ih =>
    obtain ⟨hdir, hdirs⟩ := List.forall_mem_cons.mp hdirs
    obtain ⟨hsame, hbeside⟩ := ih hdirs
    refine ⟨?_, ?_⟩
    · rw [Template.filesOfAll, Template.filesOfAll, h.filesBelow hdir.outside, hsame]
    · intro files hfiles file hfile
      obtain ⟨here, hhere, hfiles⟩ := bind_eq_ok.mp hfiles
      obtain ⟨rest, hrest, ⟨⟩⟩ := bind_eq_ok.mp hfiles
      rcases List.mem_append.mp hfile with hfile | hfile
      · exact h.beside_of_mem_filesBelow hdir (mapError_eq_ok.mp hhere) file
          (List.mem_filter.mp hfile).1
      · exact hbeside rest hrest file hfile

theorem mem_of_mem_dropRepeated {p : Path} {ps : List Path}
    (h : p ∈ FileSystem.dropRepeated ps) : p ∈ ps := by
  induction ps using FileSystem.dropRepeated.induct with
  | case1 q r rest hsame ih =>
    rw [FileSystem.dropRepeated, if_pos hsame] at h
    rcases List.mem_cons.mp (ih h) with rfl | h
    · exact List.mem_cons_self
    · exact List.mem_cons_of_mem _ (List.mem_cons_of_mem _ h)
  | case2 q r rest hother ih =>
    rw [FileSystem.dropRepeated, if_neg hother] at h
    rcases List.mem_cons.mp h with rfl | h
    · exact List.mem_cons_self
    · exact List.mem_cons_of_mem _ (ih h)
  | case3 ps hshort =>
    rwa [FileSystem.dropRepeated] at h
    exact hshort

theorem migrateAreas {templates : List (Area × List Path)} (hD : D ≠ [])
    (hdirs : ∀ t ∈ templates, ∀ dir ∈ t.2, dir.Beside D) (s : Setup) (root : Path) (v : Version)
    (mode : Mode) (report : Report) (fixed : List Path) (h : Prunes D old w.fs (w.fs.prune D)) :
    Unaware D old w (Run.migrateAreas s root v mode report fixed templates)
      (Run.migrateAreas s root v mode report fixed templates) fun _ _ => True := by
  induction templates generalizing w report fixed with
  | nil => exact .pure h trivial
  | cons t templates ih =>
    obtain ⟨hdir, hdirs⟩ := List.forall_mem_cons.mp hdirs
    obtain ⟨hsame, hbeside⟩ := filesOfAll h hdir
    unfold Run.migrateAreas
    have hfiles : Template.files (w.fs.prune D) t.2 = Template.files w.fs t.2 := by
      rw [Template.files, Template.files, hsame]
    refine (reading hfiles h).bind fun files w' hread h' => ?_
    obtain ⟨rfl, hread⟩ := hread
    have hfilesBeside : ∀ file ∈ files, file.Beside D := by
      unfold Template.files at hread
      cases hall : Template.filesOfAll w'.fs t.2 with
      | error failure =>
        rw [hall] at hread
        cases hread
      | ok all =>
        rw [hall] at hread
        cases hread
        intro file hfile
        have hmem := List.mem_mergeSort.mp (mem_of_mem_dropRepeated hfile)
        exact hbeside all hall file hmem
    exact (migrate hD hfilesBeside s root t.1 v mode h').bind fun here w _ h => ih hdirs _ _ h

/-! ## Sources -/

theorem check_prune {l : Linter} (hl : l.IsLocal) {fs : FileSystem} {dir : Path} (php : String)
    (h : Prunes D old fs (fs.prune D)) (tree : fs.IsTree) (tree' : (fs.prune D).IsTree)
    (hdir : dir.Outside D) (hthere : fs.isDirectory dir = true) :
    l.check (fs.prune D) php dir = l.check fs php dir := by
  obtain ⟨base, htrue⟩ := isDirectory_iff.mp hthere
  -- no link is at the end of the path
  have hfalse : fs.resolve false dir = .ok (.found base .directory) := by
    cases hresolve : fs.resolve false dir with
    | error kind =>
      rw [resolve_true hresolve (by simp)] at htrue
      exact htrue
    | ok place =>
      obtain ⟨-, -, hlink⟩ := h.reached hdir.toAvoids hresolve
      rw [resolve_true hresolve fun k target heq => hlink k target (Except.ok.inj heq)] at htrue
      exact htrue
  have hfalse' : (fs.prune D).resolve false dir = .ok (.found base .directory) := by
    rw [h.resolve hdir.toAvoids, hfalse]
  obtain ⟨hbelow, -, -⟩ := h.reached hdir.toAvoids hfalse
  have habove : ¬base <+: D := by
    rw [h.eq_walk_of_resolve hdir.toAvoids hfalse]
    exact hdir.apart
  refine hl fs (fs.prune D) php dir base tree tree' hfalse hfalse' ?_
  show ((fs.entries.filter fun p => !D.isPrefixOf p.1).filter fun p => base.isPrefixOf p.1) = _
  rw [List.filter_filter]
  apply List.filter_congr
  rintro ⟨k, e⟩ -
  cases hk : base.isPrefixOf k with
  | false => rfl
  | true =>
    obtain ⟨names, rfl⟩ := List.isPrefixOf_iff_prefix.mp hk
    rw [Bool.true_and]
    exact keeps_iff.mpr (not_prefix_append habove hbelow).1

theorem askLinter {l : Linter} (hl : l.IsLocal) {dir : Path} (php : String)
    (h : Prunes D old w.fs (w.fs.prune D)) (tree : w.fs.IsTree) (tree' : (w.fs.prune D).IsTree)
    (hdir : dir.Outside D)
    (hthere : w.fs.isDirectory dir = true) :
    Unaware D old w (Run.askLinter l php dir) (Run.askLinter l php dir)
      fun _ after => after.fs = w.fs := by
  unfold Run.askLinter
  refine (modify (w := w) (g := fun w => { w with lintCalls := (php, dir) :: w.lintCalls }) rfl
    h).bind fun _ asked hasked h => ?_
  subst hasked
  refine (cancelIf l.cancels h).bind fun _ after hafter h => ?_
  refine .get_bind ?_
  have hfs : after.fs = w.fs := hafter
  have hcheck : l.check (after.prune D).fs php dir = l.check after.fs php dir := by
    show l.check (after.fs.prune D) php dir = _
    rw [hfs] at h ⊢
    exact check_prune hl php h tree tree' hdir hthere
  rw [hcheck]
  exact .pure h hfs

theorem lintDir {l : Linter} (hl : l.IsLocal) {dir : Path} (root : Path) (php : String)
    (report : Report) (h : Prunes D old w.fs (w.fs.prune D)) (tree : w.fs.IsTree)
    (tree' : (w.fs.prune D).IsTree) (hdir : dir.Outside D)
    (hthere : w.fs.isDirectory dir = true) :
    Unaware D old w (Run.lintDir l root php dir report) (Run.lintDir l root php dir report)
      fun _ after => after.fs = w.fs := by
  unfold Run.lintDir
  refine (askLinter hl php h tree tree' hdir hthere).bind fun answer next hnext h => ?_
  cases answer with
  | ok errors => exact .pure h hnext
  | error failure =>
    cases failure
    case cancelled => exact .throw h
    all_goals exact .pure h hnext

theorem lintDirs {l : Linter} (hl : l.IsLocal) {dirs : List Path} (root : Path) (php : String)
    (report : Report) (h : Prunes D old w.fs (w.fs.prune D)) (tree : w.fs.IsTree)
    (tree' : (w.fs.prune D).IsTree) (hdirs : ∀ dir ∈ dirs, Apart D w.fs dir) :
    Unaware D old w (Run.lintDirs l root php report dirs) (Run.lintDirs l root php report dirs)
      fun _ _ => True := by
  induction dirs generalizing w report with
  | nil => exact .pure h trivial
  | cons dir dirs ih =>
    obtain ⟨hdir, hdirs⟩ := List.forall_mem_cons.mp hdirs
    unfold Run.lintDirs
    refine (ofCancellable _ h).bind fun _ after hafter h => ?_
    rw [← hafter] at hdir hdirs tree tree'
    refine .get_bind ?_
    -- the directory is there with `D` exactly if it is there without it
    have hsame : (after.prune D).fs.isDirectory dir = after.fs.isDirectory dir := by
      rcases hdir with hdir | ⟨hmissing, hmissing'⟩
      · exact h.isDirectory hdir.toAvoids
      · rw [hmissing]
        exact hmissing'
    rw [hsame]
    by_cases hthere : after.fs.isDirectory dir = true
    · rw [if_pos hthere]
      have hout : dir.Outside D := hdir.resolve_right fun hmissing => by
        rw [hmissing.1] at hthere
        cases hthere
      refine (lintDir hl root php report h tree tree' hout hthere).bind
        fun report next hnext h => ?_
      rw [← hnext] at hdirs tree tree'
      exact ih report h tree tree' hdirs
    · rw [if_neg hthere]
      exact ih report h tree tree' hdirs

theorem lintSources {s : Setup} (hl : s.linter.IsLocal) {dirs : List Path} (root : Path)
    (c : Constraint) (report : Report) (h : Prunes D old w.fs (w.fs.prune D)) (tree : w.fs.IsTree)
    (tree' : (w.fs.prune D).IsTree)
    (htable : s.table.entries (w.fs.prune D) = s.table.entries w.fs)
    (hdirs : ∀ dir ∈ dirs, Apart D w.fs dir) :
    Unaware D old w (Run.lintSources s root c dirs report) (Run.lintSources s root c dirs report)
      fun _ _ => True := by
  unfold Run.lintSources
  split
  · exact .pure h trivial
  · refine .get_bind ?_
    have hphp : s.table.phpVersion (w.prune D).fs c = s.table.phpVersion w.fs c := by
      show s.table.phpVersion (w.fs.prune D) c = _
      rw [CompatibilityTable.phpVersion, htable, CompatibilityTable.phpVersion]
    rw [hphp]
    cases s.table.phpVersion w.fs c with
    | ok php => exact lintDirs hl root php report h tree tree' hdirs
    | error failure => exact .pure h trivial

/-! ## A whole run -/

theorem examine {s : Setup} (hD : D ≠ []) (hl : s.linter.IsLocal) {root : Path} {c : Constraint}
    {v : Version} {lint : Bool} {sources : List Path} {templates : List (Area × List Path)}
    {mode : Mode} (report : Report) (h : Prunes D old w.fs (w.fs.prune D)) (tree : w.fs.IsTree)
    (tree' : (w.fs.prune D).IsTree)
    (htable : s.table.entries (w.fs.prune D) = s.table.entries w.fs)
    (hsources : ∀ dir ∈ sources, Apart D w.fs dir)
    (htemplates : ∀ t ∈ templates, ∀ dir ∈ t.2, dir.Beside D) :
    Unaware D old w (Run.examine s root c v lint sources templates mode report)
      (Run.examine s root c v lint sources templates mode report) fun _ _ => True := by
  have hmigrate (report : Report) (w : World) (h : Prunes D old w.fs (w.fs.prune D)) :
      Unaware D old w (Run.migrateAreas s root v mode report [] templates)
        (Run.migrateAreas s root v mode report [] templates) fun _ _ => True :=
    migrateAreas hD htemplates s root v mode report [] h
  unfold Run.examine
  cases lint with
  | true =>
    refine (lintSources hl root c report h tree tree' htable hsources).bind fun report w _ h => ?_
    exact (hmigrate report w h).bind fun migrated w _ h => .pure h trivial
  | false =>
    refine Unaware.bind (P := fun _ _ => True) (.pure h trivial) fun report w _ h => ?_
    exact (hmigrate report w h).bind fun migrated w _ h => .pure h trivial

end Unaware

end ExtensionAudit
