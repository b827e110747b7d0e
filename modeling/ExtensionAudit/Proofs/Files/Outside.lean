import ExtensionAudit.Proofs.Files.LastNames
import ExtensionAudit.Proofs.Files.Pruning
/-
  Changes outside of a directory. What is made, renamed or rewritten along paths
  that keep out of `D` is so with `D` and without it, and leaves what is at `D` as
  it was.

  Main statement: `Prunes.writeText`.
-/

namespace ExtensionAudit

/-- Two results of a step: both fail in the same way, or both succeed, with related values. -/
inductive SameResult {ε α : Type} (R : α → α → Prop) : Except ε α → Except ε α → Prop where
  | error (e : ε) : SameResult R (.error e) (.error e)
  | ok {a b : α} : R a b → SameResult R (.ok a) (.ok b)

namespace FileSystem

variable {fs fs' old : FileSystem} {D here l k : Location} {through : Bool} {links : Nat}
  {pieces : List Text} {name : Text} {e : Entry} {p q : Path}

theorem get?_put_root (fs : FileSystem) (e : Entry) (k : Location) :
    (fs.put [] e).get? k = fs.get? k := by
  by_cases hk : k = []
  · simp [get?, hk]
  · have hk' : ¬[] = k := fun heq => hk heq.symm
    simp [get?, put, find?, hk, hk', find?_without]

theorem get?_erase_root (fs : FileSystem) (k : Location) : (fs.erase []).get? k = fs.get? k := by
  by_cases hk : k = []
  · simp [get?, hk]
  · simp [get?, erase, hk, find?_without]

namespace Prunes

theorem put (h : Prunes D old fs fs') (hbelow : ¬D <+: l) (hnames : ∀ n ∈ l, IsEntryName n)
    (hlink : ∀ target, e ≠ .link target) : Prunes D old (fs.put l e) (fs'.put l e) := by
  refine ⟨by rw [h.eq, prune_put hbelow], ?_, ?_, ?_⟩
  · intro k target hk
    by_cases hl : l = []
    · rw [hl, get?_put_root] at hk
      exact h.links k target hk
    · rw [get?_put hl] at hk
      split at hk
      · exact hlink target (Option.some.inj hk)
      · exact h.links k target hk
  · intro p hp
    rcases List.mem_cons.mp hp with rfl | hp
    · exact hnames
    · exact h.names p (List.mem_filter.mp hp).1
  · intro k hk
    have hkl : k ≠ l := fun heq => hbelow (heq ▸ hk)
    rw [← h.same k hk]
    by_cases hl : l = []
    · rw [hl, get?_put_root]
    · rw [get?_put hl, if_neg hkl]

theorem erase (h : Prunes D old fs fs') (hbelow : ¬D <+: l) :
    Prunes D old (fs.erase l) (fs'.erase l) := by
  refine ⟨by rw [h.eq, prune_erase], ?_, ?_, ?_⟩
  · intro k target hk
    by_cases hl : l = []
    · rw [hl, get?_erase_root] at hk
      exact h.links k target hk
    · rw [get?_erase hl] at hk
      split at hk
      · cases hk
      · exact h.links k target hk
  · intro p hp
    exact h.names p (List.mem_filter.mp hp).1
  · intro k hk
    have hkl : k ≠ l := fun heq => hbelow (heq ▸ hk)
    rw [← h.same k hk]
    by_cases hl : l = []
    · rw [hl, get?_erase_root]
    · rw [get?_erase hl, if_neg hkl]

/-! ## Replacing a file -/

theorem makeDirectory (h : Prunes D old fs fs') (hp : p.Avoids D) :
    SameResult (Prunes D old) (fs.makeDirectory p) (fs'.makeDirectory p) := by
  unfold FileSystem.makeDirectory
  rw [h.resolve hp]
  cases hresolve : fs.resolve false p with
  | error kind => exact .error _
  | ok place =>
    obtain ⟨hbelow, hnames, -⟩ := h.reached hp hresolve
    cases place with
    | found l e => exact .error _
    | missing l rest => exact .ok (h.put hbelow hnames (by simp))

/-- A step that can fail leaves related file systems, and fails in both or in neither. -/
def Step (D : Location) (old : FileSystem) (x y : FileSystem × Option IoKind) : Prop :=
  Prunes D old x.1 y.1 ∧ x.2 = y.2

theorem ensureDirectory (h : Prunes D old fs fs') (hp : p.Avoids D) :
    Step D old (fs.ensureDirectory p) (fs'.ensureDirectory p) := by
  have hmake := h.makeDirectory hp
  unfold FileSystem.ensureDirectory
  generalize fs.makeDirectory p = x at hmake ⊢
  generalize fs'.makeDirectory p = y at hmake ⊢
  cases hmake with
  | error e => exact ⟨h, by simp only [h.isDirectory hp]⟩
  | ok hab => exact ⟨hab, rfl⟩

theorem makeDirectoriesWithin (h : Prunes D old fs fs') (hp : p.Avoids D) (depth : Nat) :
    Step D old (fs.makeDirectoriesWithin p depth) (fs'.makeDirectoriesWithin p depth) := by
  induction depth generalizing p with
  | zero =>
    unfold FileSystem.makeDirectoriesWithin
    split
    · exact ⟨h, rfl⟩
    · exact h.ensureDirectory hp
  | succ depth ih =>
    have hmake := h.makeDirectory hp
    unfold FileSystem.makeDirectoriesWithin
    generalize fs.makeDirectory p = x at hmake ⊢
    generalize fs'.makeDirectory p = y at hmake ⊢
    cases hmake with
    | ok hab => exact h.ensureDirectory hp
    | error e =>
      split
      · -- the directory above is made first, in both or in neither
        rename_i parent heq hparent
        cases heq
        have habove := ih (hp.parent? hparent)
        revert habove
        generalize fs.makeDirectoriesWithin parent depth = x
        generalize fs'.makeDirectoriesWithin parent depth = y
        obtain ⟨x, failed⟩ := x
        obtain ⟨y, failed'⟩ := y
        rintro ⟨hxy, rfl⟩
        cases failed with
        | none => exact Prunes.ensureDirectory hxy hp
        | some kind => exact ⟨hxy, rfl⟩
      · exact h.ensureDirectory hp

theorem openEmpty (h : Prunes D old fs fs') (hp : p.Avoids D) :
    SameResult (fun a b => Prunes D old a.1 b.1 ∧ a.2 = b.2 ∧ ¬D <+: a.2 ∧
      ∀ n ∈ a.2, IsEntryName n) (fs.openEmpty p) (fs'.openEmpty p) := by
  unfold FileSystem.openEmpty
  rw [h.resolve hp]
  cases hresolve : fs.resolve true p with
  | error kind => exact .error _
  | ok place =>
    obtain ⟨hbelow, hnames, -⟩ := h.reached hp hresolve
    cases place with
    | found l e =>
      cases e with
      | file content executable =>
        exact .ok ⟨h.put hbelow hnames (by simp), rfl, hbelow, hnames⟩
      | _ => exact .error _
    | missing l rest =>
      show SameResult _ (if rest.isEmpty = true then _ else _) (if rest.isEmpty = true then _ else _)
      split
      · exact .ok ⟨h.put hbelow hnames (by simp), rfl, hbelow, hnames⟩
      · exact .error _

theorem setContent (h : Prunes D old fs fs') (hbelow : ¬D <+: l)
    (hnames : ∀ n ∈ l, IsEntryName n) (content : ByteArray) :
    Prunes D old (fs.setContent l content) (fs'.setContent l content) := by
  unfold FileSystem.setContent
  rw [h.get? hbelow]
  split <;> exact h.put hbelow hnames (by simp)

theorem remove (h : Prunes D old fs fs') (hp : p.Avoids D) :
    Prunes D old (fs.remove p) (fs'.remove p) := by
  unfold FileSystem.remove
  rw [h.resolve hp]
  cases hresolve : fs.resolve false p with
  | error kind => exact h
  | ok place =>
    obtain ⟨hbelow, -, -⟩ := h.reached hp hresolve
    cases place with
    | missing l rest => exact h
    | found l e =>
      cases e with
      | directory => exact h
      | _ => exact h.erase hbelow

theorem lastStep (h : Prunes D old fs fs') (hp : p.Avoids D) :
    fs'.lastStep p = fs.lastStep p := by
  unfold FileSystem.lastStep
  rw [h.start p]
  cases hstart : fs.start p with
  | error kind => dsimp only [bind, Except.bind]
  | ok here =>
    obtain ⟨rfl, -⟩ := start_absolute hp hstart
    dsimp only [bind, Except.bind]
    cases hnamed : p.pieces.reverse.dropWhile (·.isEmpty) with
    | nil => rfl
    | cons piece above =>
      rw [← List.reverse_reverse above] at hnamed
      obtain ⟨-, -, hsteps⟩ := Path.exists_pieces_of_dropWhile hnamed
      dsimp only
      rw [h.follow (hp.steps.front (hsteps ▸ List.prefix_append _ _))]

theorem outside_of_lastStep {dir : Location} (h : Prunes D old fs fs') (hp : p.Avoids D)
    (hlast : fs.lastStep p = .ok (dir, name)) (hname : IsName name) :
    ¬D <+: dir ++ [name] ∧ ∀ n ∈ dir ++ [name], IsEntryName n := by
  obtain ⟨here, hstart, ⟨-, -, rfl⟩ | ⟨front, hfront, hfollow⟩⟩ := lastStep_eq_ok_iff.mp hlast
  · cases hname.component
  obtain ⟨rfl, hpieces⟩ := start_absolute hp hstart
  obtain ⟨-, ⟨idle, hsplit⟩, hsteps⟩ := Path.exists_pieces_of_dropWhile hfront
  rw [List.filterMap_cons, hname.component, List.filterMap_nil] at hsteps
  have havoids := hp.steps
  rw [hsteps] at havoids
  have hmem : ∀ part ∈ front ++ [name], part ∈ p.pieces := by
    intro part hpart
    rw [hsplit, List.append_cons]
    exact List.mem_append_left _ hpart
  have habove := havoids.front (List.prefix_append _ _)
  rw [← h.follow habove] at hfollow
  obtain ⟨-, hnames⟩ := h.reached_of_follow habove (by simp)
    (fun part hpart => hpieces part (hmem part (List.mem_append_left _ hpart))) hfollow
  obtain ⟨hslash, hzero⟩ := hpieces name (hmem name (by simp))
  constructor
  · have hend := havoids.end
    rw [walk_append, ← h.links.eq_walk_of_follow hfollow] at hend
    exact hend
  · exact IsEntryName.concat ⟨hname, hslash, hzero⟩ hnames

theorem rename (h : Prunes D old fs fs') (hp : p.Avoids D) (hq : q.Avoids D) :
    SameResult (Prunes D old) (fs.rename p q) (fs'.rename p q) := by
  rw [rename_eq, rename_eq, h.resolve hp, h.lastStep hq]
  cases hresolve : fs.resolve false p with
  | error kind => exact .error _
  | ok place =>
    obtain ⟨hbelow, -, hlink⟩ := h.reached hp hresolve
    cases place with
    | missing l rest => exact .error _
    | found from_ e =>
      cases hstep : fs.lastStep q with
      | error kind => exact .error _
      | ok found =>
        obtain ⟨dir, name⟩ := found
        simp only [bind, Except.bind]
        unfold giveName
        dsimp only
        cases hrefused : refusal? q name with
        | some kind => exact .error _
        | none =>
          -- a piece that is not refused names something
          obtain ⟨hdots, hsize, -⟩ := refusal?_eq_none_iff.mp hrefused
          obtain ⟨houtside, hnames⟩ :=
            h.outside_of_lastStep hq hstep (isName_of_lastStep hstep hdots hsize)
          have hput := (h.erase hbelow).put (e := e) houtside hnames fun target he =>
            hlink from_ target (he ▸ rfl)
          rw [h.get? houtside]
          split
          · exact .error _
          · exact .error _
          · exact .ok hput

/-- States of a replacement between two steps, with and without `D`; the open file is outside. -/
structure States (D : Location) (old : FileSystem) (s s' : WriteState) : Prop where
  files : Prunes D old s.fs s'.fs
  handle : s.handle = s'.handle
  outside : ¬D <+: s.handle
  names : ∀ n ∈ s.handle, IsEntryName n

theorem temporary_beside {w : AtomicWrite} (hp : w.path.Beside D) : w.temporary.Beside D :=
  hp.withFileName w.componentOf?_temporaryName w.slash_not_mem_temporaryName

theorem States.perform {s s' : WriteState} (h : States D old s s') {w : AtomicWrite}
    (hp : w.path.Beside D) (step : WriteStep) :
    States D old (w.perform s step).1 (w.perform s' step).1 ∧
      (w.perform s step).2 = (w.perform s' step).2 := by
  have htemporary := temporary_beside hp
  cases step with
  | makeParents =>
    simp only [AtomicWrite.perform]
    cases hparent : w.path.parent? with
    | none => exact ⟨h, rfl⟩
    | some parent =>
      obtain ⟨hfiles, hfailed⟩ :=
        h.files.makeDirectoriesWithin (hp.avoids.parent? hparent) parent.components.length
      exact ⟨⟨hfiles, h.handle, h.outside, h.names⟩, hfailed⟩
  | openTemporary =>
    -- the temporary file is a sibling of the target, so it lies beside `D` as well
    have hopen := h.files.openEmpty htemporary.avoids
    simp only [AtomicWrite.perform]
    generalize s.fs.openEmpty w.temporary = x at hopen ⊢
    generalize s'.fs.openEmpty w.temporary = y at hopen ⊢
    cases hopen with
    | error kind => exact ⟨h, rfl⟩
    | ok hab => exact ⟨⟨hab.1, hab.2.1, hab.2.2.1, hab.2.2.2⟩, rfl⟩
  | write =>
    refine ⟨⟨?_, h.handle, h.outside, h.names⟩, rfl⟩
    simp only [AtomicWrite.perform, ← h.handle]
    exact h.files.setContent h.outside h.names _
  | rename =>
    have hrename := h.files.rename htemporary.avoids hp.avoids
    simp only [AtomicWrite.perform]
    generalize s.fs.rename w.temporary w.path = x at hrename ⊢
    generalize s'.fs.rename w.temporary w.path = y at hrename ⊢
    cases hrename with
    | error kind =>
      exact ⟨⟨h.files.remove htemporary.avoids, h.handle, h.outside, h.names⟩, rfl⟩
    | ok hab => exact ⟨⟨hab, h.handle, h.outside, h.names⟩, rfl⟩
  | _ => exact ⟨h, rfl⟩

theorem States.abandon {s s' : WriteState} (h : States D old s s') {w : AtomicWrite}
    (hp : w.path.Beside D) (written : Nat) (step : WriteStep) :
    States D old (w.abandon s written step) (w.abandon s' written step) := by
  cases step with
  | write =>
    refine ⟨?_, h.handle, h.outside, h.names⟩
    simp only [AtomicWrite.abandon, ← h.handle]
    exact h.files.setContent h.outside h.names _
  | rename =>
    exact ⟨h.files.remove (temporary_beside hp).avoids, h.handle, h.outside, h.names⟩
  | _ => exact h

theorem States.attempt {s s' : WriteState} (h : States D old s s') {w : AtomicWrite}
    (hp : w.path.Beside D) (fault : Option WriteFault) (step : WriteStep) :
    States D old (w.attempt fault s step).1 (w.attempt fault s' step).1 ∧
      (w.attempt fault s step).2 = (w.attempt fault s' step).2 := by
  unfold AtomicWrite.attempt
  cases fault.filter (·.step = step) with
  | some f => exact ⟨h.abandon hp f.written step, rfl⟩
  | none =>
    obtain ⟨hstate, hrefused⟩ := h.perform hp step
    exact ⟨hstate, by simp only [hrefused]⟩

theorem States.runSteps {s s' : WriteState} (h : States D old s s') {w : AtomicWrite}
    (hp : w.path.Beside D) (fault : Option WriteFault) (seen seen' : List FileSystem)
    (steps : List WriteStep) :
    ∃ last last' more more' failure,
      w.runSteps fault (s.fs :: seen) s steps = (last :: more, failure) ∧
      w.runSteps fault (s'.fs :: seen') s' steps = (last' :: more', failure) ∧
      Prunes D old last last' := by
  induction steps generalizing s s' seen seen' with
  | nil => exact ⟨s.fs, s'.fs, seen, seen', none, rfl, rfl, h.files⟩
  | cons step steps ih =>
    obtain ⟨hstate, hfailed⟩ := h.attempt hp fault step
    unfold AtomicWrite.runSteps
    generalize w.attempt fault s step = x at hstate hfailed ⊢
    generalize w.attempt fault s' step = y at hstate hfailed ⊢
    obtain ⟨x, failed⟩ := x
    obtain ⟨y, failed'⟩ := y
    obtain rfl : failed = failed' := hfailed
    cases failed with
    | none => exact ih hstate _ _
    | some failure => exact ⟨_, _, _, _, _, rfl, rfl, hstate.files⟩

/-- Replacing a file outside of `D` ends in the same way with `D` and without it. -/
theorem writeText (h : Prunes D old fs fs') (hp : p.Beside D) (hD : D ≠ []) (text : String)
    (process : WritingProcess) :
    Prunes D old (fs.writeText p text process).1 (fs'.writeText p text process).1 ∧
      (fs'.writeText p text process).2 = (fs.writeText p text process).2 := by
  have hstates : States D old ⟨fs, []⟩ ⟨fs', []⟩ :=
    ⟨h, rfl, fun hroot => hD (List.prefix_nil.mp hroot), by simp⟩
  obtain ⟨last, last', more, more', failure, hrun, hrun', hlast⟩ := hstates.runSteps
    (w := ⟨p, text.toUTF8, process.number⟩) hp (process.fault p) [] [] WriteStep.all
  unfold FileSystem.writeText AtomicWrite.run
  rw [hrun, hrun']
  exact ⟨hlast, rfl⟩

end Prunes

end FileSystem

end ExtensionAudit
