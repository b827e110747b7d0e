import ExtensionAudit.Proofs.Files.Passing
/-
  Replacing a file leaves every other one alone. A file, or a link to one, is
  replaced in the place that its name stands for, if nothing that could be opened
  stands where the temporary file is put; where the file system refuses a step or
  the step is made to fail, all that stood stays as it was.

  Main statements: `Staged.attempt` (one step), `Staged.runSteps`,
  `Replaceable.writeText_cases` and `Replaceable.run_cases`.
-/

namespace ExtensionAudit

/-- How a replacement fails: at the step that is made to fail, or before it at the temporary file,
where that cannot be opened. -/
def AtomicWrite.failure? (w : AtomicWrite) (fault : Option WriteFault) :
    Except IoKind Location → Option Failure
  | .ok _ => fault.map fun f => w.failureOf f.kind f.step
  | .error kind =>
    match fault.filter fun f => f.step = .makeParents ∨ f.step = .openTemporary with
    | some f => some (w.failureOf f.kind f.step)
    | none => some (w.failureOf kind .openTemporary)

theorem AtomicWrite.failure?_error (w : AtomicWrite) (fault : Option WriteFault) (kind : IoKind) :
    w.failure? fault (.error kind) ≠ none := by
  unfold failure?
  dsimp only
  split <;> nofun

theorem AtomicWrite.failure?_ne_none {w : AtomicWrite} {fault : Option WriteFault}
    {opens : Except IoKind Location} (h : fault ≠ none) : w.failure? fault opens ≠ none := by
  cases opens with
  | error kind => exact w.failure?_error fault kind
  | ok l => simpa [failure?] using h

namespace WriteStep

def behind (next : WriteStep) : List WriteStep := (WriteStep.all.dropWhile (· ≠ next)).tail

theorem mem_all (step : WriteStep) : step ∈ all := by
  cases step <;> decide

theorem rest_eq_behind {next : WriteStep} {rest : List WriteStep}
    (h : next :: rest <:+ WriteStep.all) : rest = behind next := by
  simp only [WriteStep.all, List.suffix_cons_iff, List.suffix_nil, List.cons.injEq] at h
  rcases h with ⟨rfl, rfl⟩ | ⟨rfl, rfl⟩ | ⟨rfl, rfl⟩ | ⟨rfl, rfl⟩ | ⟨rfl, rfl⟩ | ⟨rfl, rfl⟩ |
    ⟨rfl, rfl⟩ | h
  all_goals first | rfl | cases h

end WriteStep

namespace FileSystem

variable {fs fs' : FileSystem} {p : Path} {o k : Location} {process : Nat}

/-- The name at the end of a path to a file stands for a place, and nothing that can be opened
stands where the temporary file is put. -/
structure Replaceable (fs : FileSystem) (p : Path) (process : Nat) (o : Location) : Prop where
  ends : EndsAt fs p o
  room : ∀ k e, fs.resolve false (AtomicWrite.temporary ⟨p, .empty, process⟩) = .ok (.found k e) →
    ∃ kind, fs.openEmpty (AtomicWrite.temporary ⟨p, .empty, process⟩) = .error kind

/-- A new file was put in a place, and all else is as it was. -/
structure Placed (l : Location) (content : ByteArray) (fs fs' : FileSystem) : Prop where
  workingDirectory : fs'.workingDirectory = fs.workingDirectory
  get? : ∀ j, fs'.get? j = if j = l then some (.file content false) else fs.get? j

/-- All is as it was, but a new file may stand in a place where nothing stood. -/
structure Spared (k : Location) (fs fs' : FileSystem) : Prop where
  workingDirectory : fs'.workingDirectory = fs.workingDirectory
  get? : ∀ j, fs'.get? j = fs.get? j ∨
    j = k ∧ fs.get? k = none ∧ ∃ content, fs'.get? k = some (.file content false)

theorem Spared.refl (k : Location) (fs : FileSystem) : Spared k fs fs :=
  ⟨rfl, fun _ => .inl rfl⟩

theorem Placed.spared {content : ByteArray} (h : Placed k content fs fs')
    (hnone : fs.get? k = none) : Spared k fs fs' := by
  refine ⟨h.workingDirectory, fun j => ?_⟩
  by_cases hj : j = k
  · exact .inr ⟨hj, hnone, content, by rw [h.get?, if_pos rfl]⟩
  · exact .inl (by rw [h.get?, if_neg hj])

theorem ne_nil_of_get?_none (h : fs.get? k = none) : k ≠ [] := by
  rintro rfl
  simp [FileSystem.get?] at h

theorem get?_of_resolve_missing {through : Bool} {rest : List Text}
    (h : fs.resolve through p = .ok (.missing k rest)) : fs.get? k = none := by
  obtain ⟨here, -, hfollow⟩ := resolve_eq_ok_iff.mp h
  exact get?_of_missing hfollow

/-! ## The directory is there -/

theorem makeDirectory_of_isDirectory (h : fs.isDirectory p = true) :
    fs.makeDirectory p = .error .alreadyExists := by
  obtain ⟨k, htrue⟩ := isDirectory_iff.mp h
  unfold makeDirectory
  cases hfalse : fs.resolve false p with
  | error kind =>
    rw [resolve_true hfalse (by simp)] at htrue
    cases htrue
  | ok place =>
    cases place with
    | found k' e => rfl
    | missing k' rest =>
      rw [resolve_true hfalse (by simp)] at htrue
      cases htrue

theorem makeDirectories_of_isDirectory (h : fs.isDirectory p = true) :
    fs.makeDirectories p = (fs, none) := by
  have hensure : fs.ensureDirectory p = (fs, none) := by
    simp [ensureDirectory, makeDirectory_of_isDirectory h, h]
  unfold makeDirectories
  cases p.components.length with
  | zero => simp [makeDirectoriesWithin, hensure]
  | succ depth => simp [makeDirectoriesWithin, makeDirectory_of_isDirectory h, hensure]

theorem makeDirectories_of_empty (h : p.text = []) : fs.makeDirectories p = (fs, none) := by
  obtain ⟨text⟩ := p
  obtain rfl : text = [] := h
  rfl

theorem makeParents_done {w : AtomicWrite} {s : WriteState} (h : EndsAt s.fs w.path o) :
    w.perform s .makeParents = (s, none) := by
  simp only [AtomicWrite.perform]
  cases hparent : w.path.parent? with
  | none => rfl
  | some parent =>
    have hmade : s.fs.makeDirectories parent = (s.fs, none) := by
      rcases h.isDirectory_parent hparent with hempty | hdir
      · exact makeDirectories_of_empty hempty
      · exact makeDirectories_of_isDirectory hdir
    simp only [hmade]

/-! ## The temporary file -/

theorem openEmpty_of_missing (h : fs.resolve false p = .ok (.missing k [])) :
    fs.openEmpty p = .ok (fs.put k (.file .empty false), k) := by
  unfold openEmpty
  rw [resolve_true h nofun]
  rfl

/-- The temporary file can be opened where nothing stands; otherwise that is refused. -/
theorem Replaceable.openEmpty_cases {w : AtomicWrite} (h : Replaceable fs w.path w.process o) :
    (∃ kind, fs.openEmpty w.temporary = .error kind) ∨
      ∃ k, fs.resolve false w.temporary = .ok (.missing k []) ∧
        fs.openEmpty w.temporary = .ok (fs.put k (.file .empty false), k) := by
  cases hr : fs.resolve false w.temporary with
  | error kind =>
    refine .inl ⟨kind, ?_⟩
    unfold openEmpty
    rw [resolve_true hr nofun]
    rfl
  | ok place =>
    cases place with
    | found k e => exact .inl (h.room k e hr)
    | missing k rest =>
      cases rest with
      | nil => exact .inr ⟨k, rfl, openEmpty_of_missing hr⟩
      | cons piece rest =>
        refine .inl ⟨.isADirectory, ?_⟩
        unfold openEmpty
        rw [resolve_true hr nofun]
        rfl

theorem rename_found {source target : Path} {k dir : Location} {name : Text} {e : Entry}
    (hsource : fs.resolve false source = .ok (.found k e))
    (htarget : fs.lastStep target = .ok (dir, name))
    (hname : IsName name) (hslash : target.text.getLast? ≠ some '/')
    (hdir : fs.get? (dir ++ [name]) ≠ some .directory) :
    fs.rename source target = .ok ((fs.erase k).put (dir ++ [name]) e) := by
  have hdots : name ≠ ['.'] ∧ name ≠ ['.', '.'] := by
    constructor
    · rintro rfl
      cases hname.component
    · rintro rfl
      cases hname.component
  rw [rename_eq, hsource]
  show fs.lastStep target >>= _ = _
  rw [htarget]
  exact giveName_eq_ok_iff.mpr ⟨refusal?_eq_none_iff.mpr ⟨hdots, hname.size, hslash⟩, hdir, rfl⟩

theorem Placed.resolve {source : Path} {content : ByteArray} (h : Placed k content fs fs')
    (hsource : fs.resolve false source = .ok (.missing k [])) :
    fs'.resolve false source = .ok (.found k (.file content false)) := by
  obtain ⟨here, hstart, hmissing⟩ := resolve_eq_ok_iff.mp hsource
  rw [resolve_of_start ((start_of_workingDirectory h.workingDirectory source).trans hstart)]
  exact follow_of_missing h.get? hmissing

/-- The temporary file is given the name of the file, in place of what has that name. -/
theorem Placed.rename {source : Path} {content : ByteArray} (h : Placed k content fs fs')
    (hsource : fs.resolve false source = .ok (.missing k [])) (hnone : fs.get? k = none)
    (hp : EndsAt fs p o) :
    ∃ after, fs'.rename source p = .ok after ∧ Placed o content fs after := by
  obtain ⟨e, ho, he⟩ := hp.entry
  have hok : o ≠ k := by
    rintro rfl
    cases hnone.symm.trans ho
  -- directories and links are as they were, so the name is looked up where it was
  obtain ⟨dir, name, hlast, rfl, hname, hslash⟩ := hp.lastStep
  have hlast' : fs'.lastStep p = .ok (dir, name) := by
    refine lastStep_of_passages h.workingDirectory (fun j e _ hj => ?_) hlast
    have hjk : j ≠ k := by
      rintro rfl
      cases hnone.symm.trans hj
    rw [h.get?, if_neg hjk, hj]
  refine ⟨_, rename_found (h.resolve hsource) hlast' hname hslash ?_, h.workingDirectory, ?_⟩
  · rw [h.get?, if_neg hok, ho]
    exact fun hdir => he (Option.some.inj hdir)
  · intro j
    rw [get?_put (by simp), get?_erase (ne_nil_of_get?_none hnone), h.get?]
    split
    · rfl
    · split
      · rename_i hj
        rw [hj, hnone]
      · rfl

theorem setContent_workingDirectory {k : Location} {content : ByteArray} :
    (fs.setContent k content).workingDirectory = fs.workingDirectory := by
  unfold setContent
  split <;> rfl

theorem Placed.opened (hk : k ≠ []) : Placed k .empty fs (fs.put k (.file .empty false)) :=
  ⟨rfl, fun _ => get?_put hk⟩

theorem Placed.setContent {old : ByteArray} (h : Placed k old fs fs') (hk : k ≠ [])
    (content : ByteArray) : Placed k content fs (fs'.setContent k content) := by
  refine ⟨setContent_workingDirectory.trans h.workingDirectory, fun j => ?_⟩
  have hfile : fs'.get? k = some (.file old false) := by rw [h.get?, if_pos rfl]
  unfold FileSystem.setContent
  rw [hfile]
  simp only [get?_put hk, h.get?]
  split <;> rfl

theorem Placed.remove {source : Path} {content : ByteArray} (h : Placed k content fs fs')
    (hsource : fs.resolve false source = .ok (.missing k [])) (hnone : fs.get? k = none) :
    Spared k fs (fs'.remove source) := by
  unfold FileSystem.remove
  rw [h.resolve hsource]
  refine ⟨h.workingDirectory, fun j => .inl ?_⟩
  show (fs'.erase k).get? j = fs.get? j
  rw [get?_erase (ne_nil_of_get?_none hnone), h.get?]
  split
  · rename_i hj
    rw [hj, hnone]
  · rfl

/-! ## One step -/

/-- How far a replacement has come in front of its next step: the temporary file is there and empty
once it was opened, and holds the new content once that was written; in the end it is the file. -/
def Staged (w : AtomicWrite) (fs : FileSystem) (k o : Location) (s : WriteState) :
    List WriteStep → Prop
  | .makeParents :: _ => s.fs = fs
  | .openTemporary :: _ => s.fs = fs
  | .lock :: _ => s.handle = k ∧ Placed k .empty fs s.fs
  | .write :: _ => s.handle = k ∧ Placed k .empty fs s.fs
  | .sync :: _ => s.handle = k ∧ Placed k w.content fs s.fs
  | .unlock :: _ => s.handle = k ∧ Placed k w.content fs s.fs
  | .rename :: _ => s.handle = k ∧ Placed k w.content fs s.fs
  | [] => Placed o w.content fs s.fs

section Steps

variable {w : AtomicWrite} {s : WriteState} {step : WriteStep} {todo : List WriteStep}
  (hends : EndsAt fs w.path o) (hmissing : fs.resolve false w.temporary = .ok (.missing k []))

include hmissing

theorem Staged.abandon (h : Staged w fs k o s (step :: todo)) (written : Nat) :
    Spared k fs (w.abandon s written step).fs := by
  have hnone := get?_of_resolve_missing hmissing
  cases step with
  | makeParents => exact (show s.fs = fs from h) ▸ .refl k fs
  | openTemporary => exact (show s.fs = fs from h) ▸ .refl k fs
  | write =>
    obtain ⟨hhandle, hplaced⟩ := h
    show Spared k fs (s.fs.setContent s.handle (w.content.extract 0 written))
    rw [hhandle]
    exact (hplaced.setContent (ne_nil_of_get?_none hnone) _).spared hnone
  | rename => exact h.2.remove hmissing hnone
  | lock => exact h.2.spared hnone
  | sync => exact h.2.spared hnone
  | unlock => exact h.2.spared hnone

include hends

/-- A step that is not made to fail succeeds, and brings the replacement to the next one. -/
theorem Staged.perform (hsuffix : step :: todo <:+ WriteStep.all)
    (h : Staged w fs k o s (step :: todo)) :
    ∃ s', w.perform s step = (s', none) ∧ Staged w fs k o s' todo := by
  have hnone := get?_of_resolve_missing hmissing
  have hk := ne_nil_of_get?_none hnone
  obtain rfl := WriteStep.rest_eq_behind hsuffix
  cases step with
  | makeParents =>
    have hfs : s.fs = fs := h
    exact ⟨s, makeParents_done (hfs ▸ hends), hfs⟩
  | openTemporary =>
    have hfs : s.fs = fs := h
    refine ⟨⟨fs.put k (.file .empty false), k⟩, ?_, rfl, .opened hk⟩
    simp only [AtomicWrite.perform, hfs, openEmpty_of_missing hmissing]
  | write =>
    obtain ⟨hhandle, hplaced⟩ := h
    refine ⟨_, rfl, hhandle, ?_⟩
    show Placed k w.content fs (s.fs.setContent s.handle w.content)
    rw [hhandle]
    exact hplaced.setContent hk _
  | rename =>
    obtain ⟨after, hrename, hafter⟩ := h.2.rename hmissing hnone hends
    exact ⟨{ s with fs := after }, by simp only [AtomicWrite.perform, hrename], hafter⟩
  | lock => exact ⟨s, rfl, h⟩
  | sync => exact ⟨s, rfl, h⟩
  | unlock => exact ⟨s, rfl, h⟩

/-! ## The whole replacement -/

/-- The steps that are left are all done, or one of them is the one made to fail. -/
theorem Staged.runSteps (hsuffix : todo <:+ WriteStep.all) (h : Staged w fs k o s todo)
    (fault : Option WriteFault) (seen : List FileSystem) :
    ∃ last more failure, w.runSteps fault (s.fs :: seen) s todo = (last :: more, failure) ∧
      ((failure = none ∧ (∀ f ∈ fault, f.step ∉ todo) ∧ Placed o w.content fs last) ∨
        ∃ f ∈ fault, failure = some (w.failureOf f.kind f.step) ∧ Spared k fs last) := by
  induction todo generalizing s seen with
  | nil => exact ⟨s.fs, seen, none, rfl, .inl ⟨rfl, by simp, h⟩⟩
  | cons step todo ih =>
    unfold AtomicWrite.runSteps AtomicWrite.attempt
    cases hfault : fault.filter (·.step = step) with
    | some f =>
      obtain ⟨hf, hstep⟩ := Option.filter_eq_some_iff.mp hfault
      refine ⟨_, _, _, rfl, .inr ⟨f, hf, ?_, h.abandon hmissing f.written⟩⟩
      rw [of_decide_eq_true hstep]
    | none =>
      obtain ⟨s', hperform, hs'⟩ := h.perform hends hmissing hsuffix
      obtain ⟨last, more, failure, hrun, hcases⟩ :=
        ih ((List.suffix_cons step todo).trans hsuffix) hs' (s.fs :: seen)
      refine ⟨last, more, failure, by simp only [hperform, Option.map_none, hrun], ?_⟩
      rcases hcases with ⟨hdone, hothers, hplaced⟩ | hfailed
      · refine .inl ⟨hdone, fun f hf hmem => ?_, hplaced⟩
        rcases List.mem_cons.mp hmem with hstep | hmem
        · simp [Option.mem_def.mp hf, hstep] at hfault
        · exact hothers f hf hmem
      · exact .inr hfailed

end Steps

theorem run_refused {w : AtomicWrite} {kind : IoKind} (hends : EndsAt fs w.path o)
    (hopen : fs.openEmpty w.temporary = .error kind) (fault : Option WriteFault) :
    ∃ more, w.run fault fs = (fs :: more, w.failure? fault (.error kind)) := by
  have hparents := makeParents_done (s := ⟨fs, []⟩) hends
  have hperform : w.perform ⟨fs, []⟩ .openTemporary = (⟨fs, []⟩, some kind) := by
    simp only [AtomicWrite.perform, hopen]
  have habandon (written : Nat) (step : WriteStep)
      (hstep : step = .makeParents ∨ step = .openTemporary) :
      w.abandon ⟨fs, []⟩ written step = ⟨fs, []⟩ := by
    rcases hstep with rfl | rfl <;> rfl
  rw [AtomicWrite.run, WriteStep.all, AtomicWrite.failure?]
  cases fault with
  | none =>
    exact ⟨[fs, fs], by simp [AtomicWrite.runSteps, AtomicWrite.attempt, hparents, hperform]⟩
  | some f =>
    by_cases hmake : f.step = .makeParents
    · exact ⟨[fs], by
        simp [AtomicWrite.runSteps, AtomicWrite.attempt, Option.filter_some, hmake, habandon]⟩
    by_cases hopening : f.step = .openTemporary
    · exact ⟨[fs, fs], by
        simp [AtomicWrite.runSteps, AtomicWrite.attempt, Option.filter_some, hparents, hopening,
          habandon]⟩
    · exact ⟨[fs, fs], by
        simp [AtomicWrite.runSteps, AtomicWrite.attempt, Option.filter_some, hparents, hperform,
          hmake, hopening]⟩

/-- A file is replaced in its place, unless the temporary file cannot be opened or a step is made
to fail; then all is as it was, but for a temporary file that may stay. -/
theorem Replaceable.writeText_cases {process : WritingProcess}
    (h : Replaceable fs p process.number o) (text : String) :
    let w : AtomicWrite := ⟨p, text.toUTF8, process.number⟩
    ∃ after, fs.writeText p text process =
        (after, w.failure? (process.fault p) ((fs.openEmpty w.temporary).map (·.2))) ∧
      match fs.openEmpty w.temporary, process.fault p with
      | .error _, _ => after = fs
      | .ok (_, k), some _ => Spared k fs after
      | .ok _, none => Placed o text.toUTF8 fs after := by
  intro w
  rcases Replaceable.openEmpty_cases (w := w) h with ⟨kind, hopen⟩ | ⟨k, hmissing, hopen⟩
  · obtain ⟨more, hrun⟩ := run_refused (w := w) h.ends hopen (process.fault p)
    refine ⟨fs, ?_, ?_⟩
    · unfold writeText
      rw [hrun, hopen]
      rfl
    · rw [hopen]
  · have hstart : Staged w fs k o ⟨fs, []⟩ WriteStep.all := rfl
    -- the temporary file can be opened: the steps are done one after the other
    obtain ⟨last, more, failure, hrun, hcases⟩ :=
      hstart.runSteps h.ends hmissing (List.suffix_refl _) (process.fault p) []
    have hwrite : fs.writeText p text process = (last, failure) := by
      unfold writeText AtomicWrite.run
      rw [hrun]
      rfl
    refine ⟨last, ?_, ?_⟩
    · rw [hwrite, hopen]
      rcases hcases with ⟨rfl, hnone, -⟩ | ⟨f, hf, rfl, -⟩
      · cases hfault : process.fault p with
        | none => rfl
        | some f => exact absurd (WriteStep.mem_all f.step) (hnone f hfault)
      · rw [Option.mem_def.mp hf]
        rfl
    · rw [hopen]
      rcases hcases with ⟨-, hnone, hplaced⟩ | ⟨f, hf, -, hspared⟩
      · cases hfault : process.fault p with
        | none => exact hplaced
        | some f => exact absurd (WriteStep.mem_all f.step) (hnone f hfault)
      · rw [Option.mem_def.mp hf]
        exact hspared

theorem Replaceable.placed_of_writeText {process : WritingProcess}
    (h : Replaceable fs p process.number o) {text : String} {after : FileSystem}
    (hwrite : fs.writeText p text process = (after, none)) : Placed o text.toUTF8 fs after := by
  obtain ⟨after', hwrite', hafter⟩ := h.writeText_cases text
  obtain ⟨rfl, hfailure⟩ := Prod.mk.inj (hwrite.symm.trans hwrite')
  split at hafter
  · rename_i hopen
    rw [hopen] at hfailure
    exact absurd hfailure.symm (AtomicWrite.failure?_error _ _ _)
  · rename_i hopen hfault
    rw [hopen, hfault] at hfailure
    cases hfailure
  · exact hafter

/-- A write that fails leaves all as it was, or a fault leaves the temporary file. -/
theorem Replaceable.spared_of_writeText {process : WritingProcess}
    (h : Replaceable fs p process.number o) {text : String} {after : FileSystem}
    {failure : Failure} (hwrite : fs.writeText p text process = (after, some failure)) :
    after = fs ∨ ∃ opened k,
      fs.openEmpty (AtomicWrite.temporary ⟨p, .empty, process.number⟩) = .ok (opened, k) ∧
        (process.fault p).isSome = true ∧ Spared k fs after := by
  obtain ⟨after', hwrite', hafter⟩ := h.writeText_cases text
  obtain ⟨rfl, hfailure⟩ := Prod.mk.inj (hwrite.symm.trans hwrite')
  split at hafter
  · exact .inl hafter
  · rename_i opened k _ hopen hfault
    exact .inr ⟨opened, k, hopen, by rw [hfault]; rfl, hafter⟩
  · rename_i hopen hfault
    rw [hopen, hfault] at hfailure
    cases hfailure

/-- The moments of a replacement, last first: the temporary file is opened and written where nothing
stood, and then it is the file, while all else stays; or the file system refuses to open it. -/
theorem Replaceable.run_cases (h : Replaceable fs p process o) (content : ByteArray) :
    (∃ more failure, AtomicWrite.run ⟨p, content, process⟩ none fs = (more, some failure)) ∨
      ∃ k opened written after, fs.get? k = none ∧
        AtomicWrite.run ⟨p, content, process⟩ none fs =
          ([after, written, written, written, opened, opened, fs, fs], none) ∧
        Placed k .empty fs opened ∧ Placed k content fs written ∧ Placed o content fs after := by
  let w : AtomicWrite := ⟨p, content, process⟩
  rcases Replaceable.openEmpty_cases (w := w) h with ⟨kind, hopen⟩ | ⟨k, hmissing, hopen⟩
  · obtain ⟨more, hrun⟩ := run_refused (w := w) h.ends hopen none
    exact .inl ⟨_, _, hrun⟩
  · have hnone := get?_of_resolve_missing hmissing
    have hk := ne_nil_of_get?_none hnone
    have hopened : Placed k .empty fs (fs.put k (.file .empty false)) := .opened hk
    have hwritten := hopened.setContent hk content
    obtain ⟨after, hrename, hafter⟩ := hwritten.rename hmissing hnone h.ends
    refine .inr ⟨k, _, _, after, hnone, ?_, hopened, hwritten, hafter⟩
    have hparents := makeParents_done (w := w) (s := ⟨fs, []⟩) h.ends
    have hopening : w.perform ⟨fs, []⟩ .openTemporary =
        (⟨fs.put k (.file .empty false), k⟩, none) := by
      simp only [AtomicWrite.perform, hopen]
    have hnaming (s : WriteState)
        (hs : s.fs = (fs.put k (.file .empty false)).setContent k content) :
        w.perform s .rename = ({ s with fs := after }, none) := by
      have hrename' : s.fs.rename w.temporary w.path = .ok after := hs ▸ hrename
      simp only [AtomicWrite.perform, hrename']
    have hstep (seen : List FileSystem) (s s' : WriteState) (step : WriteStep)
        (steps : List WriteStep) (hperform : w.perform s step = (s', none)) :
        w.runSteps none seen s (step :: steps) = w.runSteps none (s'.fs :: seen) s' steps := by
      simp [AtomicWrite.runSteps, AtomicWrite.attempt, hperform]
    -- each step pushes the file system that it leaves
    rw [AtomicWrite.run, WriteStep.all, hstep _ _ _ _ _ hparents, hstep _ _ _ _ _ hopening,
      hstep _ _ _ .lock _ rfl, hstep _ _ _ .write _ rfl, hstep _ _ _ .sync _ rfl,
      hstep _ _ _ .unlock _ rfl, hstep _ _ _ _ _ (hnaming _ rfl)]
    rfl

end FileSystem

end ExtensionAudit
