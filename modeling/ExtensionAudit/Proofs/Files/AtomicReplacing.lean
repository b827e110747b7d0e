import ExtensionAudit.Proofs.Files.Contention
import ExtensionAudit.Proofs.Files.Keeping
/-
  Replacing a file when any step may fail. Up to the last step a replacement makes
  directories where nothing stood and changes files with the name of the temporary
  file, and nothing else; so the temporary file that was opened is the one that is
  written, and then renamed or removed. Renaming changes the target as a whole.

  Main statements: `Progress.attempt` (one step), `run_cases` (a whole run) and
  `run_replaces_whole`.
-/

namespace ExtensionAudit

/-- A file is as it was where its location is untouched, and no file came where there was none. -/
theorem FileSystem.Untouched.held? {fs fs' : FileSystem} {l : Location}
    (h : Untouched fs fs' l) : fs'.held? l = fs.held? l := by
  unfold FileSystem.held?
  rcases h with heq | ⟨hnone, hdir⟩
  · rw [heq]
  · rw [hnone, hdir]

/-! ## One step -/

namespace AtomicWrite

open FileSystem

variable {w : AtomicWrite} {fs : FileSystem} {s s' : WriteState} {step : WriteStep}
  {todo : List WriteStep} {fault : Option WriteFault} {failure : Option Failure}
  {states seen : List FileSystem} {content : ByteArray}

/-- The temporary file is open: it stands under its name and has a content. -/
structure HasOpen (w : AtomicWrite) (s : WriteState) (content : ByteArray) : Prop where
  name : IsName w.temporaryName
  place : ∃ d, s.fs.lastStep w.temporary = .ok (d, w.temporaryName) ∧
    s.handle = d ++ [w.temporaryName]
  file : ∃ executable, s.fs.get? s.handle = some (.file content executable)

theorem HasOpen.getLast? (h : HasOpen w s content) :
    s.handle.getLast? = some w.temporaryName := by
  obtain ⟨d, -, hhandle⟩ := h.place
  rw [hhandle, List.getLast?_concat]

theorem HasOpen.handle_ne_nil (h : HasOpen w s content) : s.handle ≠ [] :=
  List.ne_nil_of_mem (List.mem_of_getLast? h.getLast?)

theorem HasOpen.not_isPassage (h : HasOpen w s content) :
    ∀ e, s.fs.get? s.handle = some e → e.isPassage = false := by
  obtain ⟨executable, hfile⟩ := h.file
  intro e he
  cases hfile.symm.trans he
  rfl

theorem HasOpen.resolve (h : HasOpen w s content) : ∃ executable,
    s.fs.resolve false w.temporary = .ok (.found s.handle (.file content executable)) := by
  obtain ⟨d, hlast, hhandle⟩ := h.place
  obtain ⟨executable, hfile⟩ := h.file
  obtain ⟨front, hpieces⟩ := w.exists_pieces_temporary
  rw [hhandle] at hfile ⊢
  exact ⟨executable, resolve_of_lastStep hpieces h.name hlast hfile⟩

theorem hasOpen_of_openEmpty {k : Location} {opened : FileSystem}
    (hlinks : ∀ d target, fs.get? (d ++ [w.temporaryName]) ≠ some (.link target))
    (h : fs.openEmpty w.temporary = .ok (opened, k)) :
    Keeps w.temporaryName fs opened ∧ HasOpen w ⟨opened, k⟩ .empty := by
  obtain ⟨executable, rfl, hplace⟩ := openEmpty_eq_ok h
  obtain ⟨front, hpieces⟩ := w.exists_pieces_temporary
  -- what the path leads to stands under the last name of the path
  obtain ⟨d, hlast, hname, rfl, hget⟩ : ∃ d, fs.lastStep w.temporary = .ok (d, w.temporaryName) ∧
      IsName w.temporaryName ∧ k = d ++ [w.temporaryName] ∧
      ∀ e, fs.get? k = some e → e.isPassage = false := by
    rcases hplace with ⟨content, hfound⟩ | hmissing
    · obtain ⟨d, hlast, hname, ⟨-, hplace⟩ | ⟨e, hget, hplace⟩⟩ :=
        lastStep_of_resolve_name hpieces w.componentOf?_temporaryName hlinks hfound
      · cases hplace
      · cases hplace
        refine ⟨d, hlast, hname, rfl, fun e he => ?_⟩
        cases hget.symm.trans he
        rfl
    · obtain ⟨d, hlast, hname, ⟨hget, hplace⟩ | ⟨e, -, hplace⟩⟩ :=
        lastStep_of_resolve_name hpieces w.componentOf?_temporaryName hlinks hmissing
      · cases hplace
        refine ⟨d, hlast, hname, rfl, fun e he => ?_⟩
        cases hget.symm.trans he
      · cases hplace
  have hkeeps : Keeps w.temporaryName fs
      (fs.put (d ++ [w.temporaryName]) (.file .empty executable)) :=
    .put_file (by simp) hget
  exact ⟨hkeeps, hname, ⟨d, hkeeps.lastStep hlast, rfl⟩, executable,
    by rw [get?_put (by simp), if_pos rfl]⟩

theorem HasOpen.setContent {old : ByteArray} (h : HasOpen w s old) (content : ByteArray) :
    Keeps w.temporaryName s.fs (s.fs.setContent s.handle content) ∧
      HasOpen w { s with fs := s.fs.setContent s.handle content } content := by
  obtain ⟨executable, hfile⟩ := h.file
  obtain ⟨d, hlast, hhandle⟩ := h.place
  have hput : s.fs.setContent s.handle content =
      s.fs.put s.handle (.file content executable) := by
    unfold FileSystem.setContent
    rw [hfile]
  have hkeeps : Keeps w.temporaryName s.fs (s.fs.put s.handle (.file content executable)) :=
    .put_file h.getLast? h.not_isPassage
  rw [hput]
  exact ⟨hkeeps, h.name, ⟨d, hkeeps.lastStep hlast, hhandle⟩, executable,
    by rw [get?_put (by simp [hhandle]), if_pos rfl]⟩

theorem HasOpen.remove (h : HasOpen w s content) :
    s.fs.remove w.temporary = s.fs.erase s.handle := by
  obtain ⟨executable, hresolve⟩ := h.resolve
  unfold FileSystem.remove
  rw [hresolve]

/-- How far a replacement has come with these steps left: the temporary file is open once it was
opened, and holds the new content once that was written. -/
structure Progress (w : AtomicWrite) (fs : FileSystem) (todo : List WriteStep) (s : WriteState) :
    Prop where
  keeps : Keeps w.temporaryName fs s.fs
  opened : .openTemporary ∉ todo → ∃ content, HasOpen w s content ∧
    (.write ∉ todo → content = w.content)

theorem Progress.still (h : Progress w fs (step :: todo) s) (hopen : step ≠ .openTemporary)
    (hwrite : step ≠ .write) : Progress w fs todo s := by
  refine ⟨h.keeps, fun hopened => ?_⟩
  obtain ⟨content, hcontent, hwritten⟩ := h.opened (by simpa [hopen.symm] using hopened)
  exact ⟨content, hcontent, fun hdone => hwritten (by simpa [hwrite.symm] using hdone)⟩

/-- A step was made to fail, or it does what it does, and fails where that is refused. -/
theorem attempt_cases (h : w.attempt fault s step = (s', failure)) :
    (failure ≠ none ∧ ∃ written, s' = w.abandon s written step) ∨
      (s' = (w.perform s step).1 ∧ (failure = none ↔ (w.perform s step).2 = none)) := by
  unfold attempt at h
  split at h
  · cases h
    exact .inl ⟨by simp, _, rfl⟩
  · cases h
    exact .inr ⟨rfl, Option.map_eq_none_iff⟩

/-- A step in front of the last one keeps what is there, and comes one step further unless it
fails. -/
theorem Progress.attempt
    (hlinks : ∀ d target, fs.get? (d ++ [w.temporaryName]) ≠ some (.link target))
    (hsuffix : step :: todo <:+ WriteStep.all) (hstep : step ≠ .rename)
    (h : Progress w fs (step :: todo) s) (hattempt : w.attempt fault s step = (s', failure)) :
    Keeps w.temporaryName s.fs s'.fs ∧ (failure = none → Progress w fs todo s') := by
  obtain rfl := WriteStep.rest_eq_behind hsuffix
  have hlinks' (d : Location) (target : Path) :
      s.fs.get? (d ++ [w.temporaryName]) ≠ some (.link target) :=
    fun hget => hlinks d target (h.keeps.links _ _ hget)
  -- a step that fails leaves at most a part of the content in the open temporary file
  rcases attempt_cases hattempt with ⟨hfailed, written, rfl⟩ | ⟨rfl, hrefused⟩
  · refine ⟨?_, fun hnone => absurd hnone hfailed⟩
    cases step with
    | write =>
      obtain ⟨content, hopened, -⟩ := h.opened (by simp [WriteStep.behind, WriteStep.all])
      exact (hopened.setContent _).1
    | rename => exact absurd rfl hstep
    | _ => exact .refl _ _
  · cases step with
    | makeParents =>
      have hextends : Extends s.fs (w.perform s .makeParents).1.fs := by
        unfold perform
        cases w.path.parent? with
        | none => exact .refl _
        | some parent => exact makeDirectoriesWithin_extends s.fs parent _
      refine ⟨hextends.keeps _, fun _ => ⟨h.keeps.trans (hextends.keeps _), fun hopened => ?_⟩⟩
      exact absurd (by simp [WriteStep.behind, WriteStep.all]) hopened
    | openTemporary =>
      unfold perform at hrefused ⊢
      cases hopen : s.fs.openEmpty w.temporary with
      | error kind =>
        rw [hopen] at hrefused
        refine ⟨.refl _ _, fun hnone => ?_⟩
        cases hrefused.mp hnone
      | ok opened =>
        obtain ⟨hkeeps, hopened⟩ := hasOpen_of_openEmpty hlinks' hopen
        refine ⟨hkeeps, fun _ => ⟨h.keeps.trans hkeeps, fun _ => ⟨_, hopened, fun hdone => ?_⟩⟩⟩
        exact absurd (by simp [WriteStep.behind, WriteStep.all]) hdone
    | write =>
      obtain ⟨content, hopened, -⟩ := h.opened (by simp [WriteStep.behind, WriteStep.all])
      obtain ⟨hkeeps, hwritten⟩ := hopened.setContent w.content
      exact ⟨hkeeps, fun _ => ⟨h.keeps.trans hkeeps, fun _ => ⟨_, hwritten, fun _ => rfl⟩⟩⟩
    | rename => exact absurd rfl hstep
    | lock | sync | unlock => exact ⟨.refl _ _, fun _ => h.still (by simp) (by simp)⟩

/-! ## All steps -/

/-- What becomes of the last step: the temporary file gets the name of the file, or it is removed. -/
theorem Progress.rename (h : Progress w fs [.rename] s)
    (hattempt : w.attempt fault s .rename = (s', failure)) :
    (failure ≠ none ∧ s'.fs = s.fs.erase s.handle) ∨
      (failure = none ∧ s.fs.rename w.temporary w.path = .ok s'.fs) := by
  obtain ⟨content, hopened, -⟩ := h.opened (by simp)
  rcases attempt_cases hattempt with ⟨hfailed, written, rfl⟩ | ⟨rfl, hrefused⟩
  · exact .inl ⟨hfailed, hopened.remove⟩
  · unfold perform at hrefused ⊢
    cases hrename : s.fs.rename w.temporary w.path with
    | error kind =>
      rw [hrename] at hrefused
      refine .inl ⟨fun hnone => ?_, hopened.remove⟩
      cases hrefused.mp hnone
    | ok renamed =>
      rw [hrename] at hrefused
      exact .inr ⟨hrefused.mpr rfl, rfl⟩

/-- A run fails in front of the last step and keeps what is there at every moment; or it does the
last step, from a moment that keeps what is there at every one before. -/
theorem Progress.runSteps
    (hlinks : ∀ d target, fs.get? (d ++ [w.temporaryName]) ≠ some (.link target))
    (hsuffix : todo <:+ WriteStep.all) (htodo : todo ≠ []) (h : Progress w fs todo s)
    (hseen : ∀ fs' ∈ seen, Keeps w.temporaryName fs fs' ∧ Keeps w.temporaryName fs' s.fs)
    (hlast : s.fs ∈ seen) (hrun : w.runSteps fault seen s todo = (states, failure)) :
    (failure ≠ none ∧ states.length < seen.length + todo.length ∧
        ∀ fs' ∈ states, Keeps w.temporaryName fs fs') ∨
      ∃ s before last, states = last :: before ∧ s.fs ∈ before ∧ Progress w fs [.rename] s ∧
        (∀ fs' ∈ before, Keeps w.temporaryName fs fs' ∧ Keeps w.temporaryName fs' s.fs) ∧
        ((failure ≠ none ∧ last = s.fs.erase s.handle) ∨
          (failure = none ∧ s.fs.rename w.temporary w.path = .ok last)) := by
  induction todo generalizing seen s with
  | nil => exact absurd rfl htodo
  | cons step todo ih =>
    unfold AtomicWrite.runSteps at hrun
    cases hattempt : w.attempt fault s step with
    | mk s' failed =>
      rw [hattempt] at hrun
      -- up to the rename only the temporary file changes
      by_cases hstep : step = .rename
      · subst hstep
        obtain rfl := WriteStep.rest_eq_behind hsuffix
        refine .inr ⟨s, seen, s'.fs, ?_, hlast, h, hseen, ?_⟩
        · cases failed <;> cases hrun <;> rfl
        · have hend := h.rename hattempt
          cases failed <;> cases hrun <;> exact hend
      · obtain ⟨hkeeps, hfurther⟩ := h.attempt hlinks hsuffix hstep hattempt
        have hrest : todo ≠ [] := by
          obtain rfl := WriteStep.rest_eq_behind hsuffix
          cases step with
          | rename => exact absurd rfl hstep
          | _ => exact List.cons_ne_nil _ _
        cases failed with
        | some failure' =>
          cases hrun
          have hpos := List.length_pos_iff.mpr hrest
          refine .inl ⟨by simp, by simp only [List.length_cons]; omega, ?_⟩
          simpa using ⟨h.keeps.trans hkeeps, fun fs' hfs' => (hseen fs' hfs').1⟩
        | none =>
          have hseen' : ∀ fs' ∈ s'.fs :: seen,
              Keeps w.temporaryName fs fs' ∧ Keeps w.temporaryName fs' s'.fs := by
            intro fs' hfs'
            rcases List.mem_cons.mp hfs' with rfl | hfs'
            · exact ⟨h.keeps.trans hkeeps, .refl _ _⟩
            · obtain ⟨hbefore, hafter⟩ := hseen fs' hfs'
              exact ⟨hbefore, hafter.trans hkeeps⟩
          rcases ih ((List.suffix_cons step todo).trans hsuffix) hrest (hfurther rfl) hseen'
            List.mem_cons_self hrun with ⟨hfailed, hlength, hall⟩ | hnext
          · refine .inl ⟨hfailed, ?_, hall⟩
            simp only [List.length_cons] at hlength ⊢
            omega
          · exact .inr hnext

theorem subset_runSteps (w : AtomicWrite) (fault : Option WriteFault) (seen : List FileSystem)
    (s : WriteState) (todo : List WriteStep) : seen ⊆ (w.runSteps fault seen s todo).1 := by
  induction todo generalizing seen s with
  | nil => exact List.Subset.refl _
  | cons step todo ih =>
    unfold AtomicWrite.runSteps
    split
    · exact List.Subset.trans (List.subset_cons_self _ _) (ih _ _)
    · exact List.subset_cons_self _ _

theorem mem_run (w : AtomicWrite) (fault : Option WriteFault) (fs : FileSystem) :
    fs ∈ (w.run fault fs).1 :=
  w.subset_runSteps fault [fs] ⟨fs, []⟩ WriteStep.all (List.mem_singleton_self fs)

theorem run_cases (hlinks : ∀ d target, fs.get? (d ++ [w.temporaryName]) ≠ some (.link target))
    (hrun : w.run fault fs = (states, failure)) :
    (failure ≠ none ∧ states.length ≤ WriteStep.all.length ∧
        ∀ fs' ∈ states, Keeps w.temporaryName fs fs') ∨
      ∃ s before last, states = last :: before ∧ s.fs ∈ before ∧ Progress w fs [.rename] s ∧
        (∀ fs' ∈ before, Keeps w.temporaryName fs fs' ∧ Keeps w.temporaryName fs' s.fs) ∧
        ((failure ≠ none ∧ last = s.fs.erase s.handle) ∨
          (failure = none ∧ s.fs.rename w.temporary w.path = .ok last)) := by
  have hstart : Progress w fs WriteStep.all ⟨fs, []⟩ :=
    ⟨.refl _ _, fun hopened => absurd (by decide) hopened⟩
  have hseen : ∀ fs' ∈ [fs], Keeps w.temporaryName fs fs' ∧ Keeps w.temporaryName fs' fs := by
    intro fs' hfs'
    obtain rfl := List.mem_singleton.mp hfs'
    exact ⟨.refl _ _, .refl _ _⟩
  rcases hstart.runSteps hlinks (List.suffix_refl _) (by decide) hseen
    (List.mem_singleton_self _) hrun with ⟨hfailed, hlength, hall⟩ | hlast
  · exact .inl ⟨hfailed, by simpa [Nat.add_comm, Nat.lt_succ_iff] using hlength, hall⟩
  · exact .inr hlast

/-! ## What is seen of a run -/

/-- A place where the file belongs: the last name of its path, in the directory that the path leads
to at some moment. -/
def IsTarget (w : AtomicWrite) (states : List FileSystem) (l : Location) : Prop :=
  ∃ fs' ∈ states, ∃ d name, fs'.lastStep w.path = .ok (d, name) ∧ l = d ++ [name]

theorem IsTarget.getLast?_ne {l : Location} (h : w.IsTarget states l) :
    l.getLast? ≠ some w.temporaryName := by
  obtain ⟨fs', -, d, name, hlast, rfl⟩ := h
  rw [List.getLast?_concat, ne_eq, Option.some.injEq]
  exact ne_temporaryName hlast

/-- The last moment of a run that did its last step: paths end where they ended before it, the
temporary file is gone, and what has another name is untouched, apart from the new content. -/
structure Ends (w : AtomicWrite) (fs last : FileSystem) (s : WriteState)
    (failure : Option Failure) : Prop where
  lastStep : ∀ p r, last.lastStep p = .ok r → s.fs.lastStep p = .ok r
  links : ∀ d target, last.get? (d ++ [w.temporaryName]) ≠ some (.link target)
  gone : last.get? s.handle = none
  untouched : ∀ l, l.getLast? ≠ some w.temporaryName → Untouched fs last l ∨
    (failure = none ∧ last.held? l = some w.content ∧
      ∃ d name, s.fs.lastStep w.path = .ok (d, name) ∧ l = d ++ [name])
  target : failure = none → ∃ d name, s.fs.lastStep w.path = .ok (d, name) ∧
    last.held? (d ++ [name]) = some w.content

theorem Progress.ends_of_erase
    (hlinks : ∀ d target, fs.get? (d ++ [w.temporaryName]) ≠ some (.link target))
    (h : Progress w fs [.rename] s) (hfailed : failure ≠ none) :
    Ends w fs (s.fs.erase s.handle) s failure := by
  obtain ⟨content, hopened, -⟩ := h.opened (by simp)
  have hhandle := hopened.handle_ne_nil
  have hkeeps := h.keeps.trans (.erase hopened.getLast? hopened.not_isPassage)
  constructor
  · intro p r hlast
    have hwd : s.fs.workingDirectory = (s.fs.erase s.handle).workingDirectory := rfl
    refine lastStep_of_passages hwd (fun l e _ hget => ?_) hlast
    rw [get?_erase hhandle] at hget
    split at hget
    · cases hget
    · exact hget
  · exact fun d target hget => hlinks d target (hkeeps.links _ _ hget)
  · rw [get?_erase hhandle, if_pos rfl]
  · exact fun l hl => .inl (hkeeps.untouched l hl)
  · exact fun hnone => absurd hnone hfailed

theorem Progress.ends_of_rename {last : FileSystem}
    (hlinks : ∀ d target, fs.get? (d ++ [w.temporaryName]) ≠ some (.link target))
    (h : Progress w fs [.rename] s) (hrename : s.fs.rename w.temporary w.path = .ok last) :
    Ends w fs last s none := by
  obtain ⟨content, hopened, hcontent⟩ := h.opened (by simp)
  obtain rfl := hcontent (by simp)
  obtain ⟨executable, hresolve⟩ := hopened.resolve
  obtain ⟨k, e, d, name, hfound, hlast, -, rfl⟩ := rename_eq_ok hrename
  cases hresolve.symm.trans hfound
  have hname := ne_temporaryName hlast
  have hhandle := hopened.handle_ne_nil
  have hother : s.handle ≠ d ++ [name] := by
    intro heq
    have hend := hopened.getLast?
    rw [heq, List.getLast?_concat, Option.some.injEq] at hend
    exact hname hend
  have hget (l : Location) :
      ((s.fs.erase s.handle).put (d ++ [name]) (.file w.content executable)).get? l =
        if l = d ++ [name] then some (.file w.content executable)
        else if l = s.handle then none else s.fs.get? l := by
    rw [get?_put (by simp), get?_erase hhandle]
  -- what a path leads on through stood there before
  have hbefore {l : Location} {e : Entry} (he : e.isPassage = true)
      (hl : ((s.fs.erase s.handle).put (d ++ [name]) (.file w.content executable)).get? l =
        some e) : s.fs.get? l = some e := by
    rw [hget] at hl
    split at hl
    · cases hl
      cases he
    · split at hl
      · cases hl
      · exact hl
  have hwd : s.fs.workingDirectory = ((s.fs.erase s.handle).put (d ++ [name])
      (.file w.content executable)).workingDirectory := rfl
  constructor
  · exact fun p r hstep => lastStep_of_passages hwd (fun l e he hl => hbefore he hl) hstep
  · exact fun d target hl => hlinks d target (h.keeps.links _ _ (hbefore rfl hl))
  · rw [hget, if_neg hother, if_pos rfl]
  · intro l hl
    by_cases htarget : l = d ++ [name]
    · refine .inr ⟨rfl, ?_, d, name, hlast, htarget⟩
      unfold FileSystem.held?
      rw [hget, if_pos htarget]
    · have hl' : l ≠ s.handle := fun heq => hl (heq ▸ hopened.getLast?)
      refine .inl ((h.keeps.untouched l hl).trans (.inl ?_))
      rw [hget, if_neg htarget, if_neg hl']
  · intro _
    refine ⟨d, name, hlast, ?_⟩
    unfold FileSystem.held?
    rw [hget, if_pos rfl]

/-- A run that comes to its last step, at all moments: a path ends where it ended in front of that
step, if anywhere; no link has the name of the temporary file; and what has another name is
untouched, or a target with the new content. -/
structure Moments (w : AtomicWrite) (fs : FileSystem) (states : List FileSystem) (s : WriteState)
    (failure : Option Failure) : Prop where
  mem : s.fs ∈ states
  lastStep : ∀ fs' ∈ states, ∀ p r, fs'.lastStep p = .ok r → s.fs.lastStep p = .ok r
  links : ∀ fs' ∈ states, ∀ d target, fs'.get? (d ++ [w.temporaryName]) ≠ some (.link target)
  untouched : ∀ fs' ∈ states, ∀ l, l.getLast? ≠ some w.temporaryName → Untouched fs fs' l ∨
    (failure = none ∧ fs'.held? l = some w.content ∧ w.IsTarget states l)

theorem Ends.moments {last : FileSystem} {before : List FileSystem}
    (hlinks : ∀ d target, fs.get? (d ++ [w.temporaryName]) ≠ some (.link target))
    (hends : Ends w fs last s failure) (hmem : s.fs ∈ before)
    (hbefore : ∀ fs' ∈ before, Keeps w.temporaryName fs fs' ∧ Keeps w.temporaryName fs' s.fs) :
    Moments w fs (last :: before) s failure := by
  constructor
  · exact List.mem_cons_of_mem _ hmem
  · intro fs' hfs' p r hstep
    rcases List.mem_cons.mp hfs' with rfl | hfs'
    · exact hends.lastStep p r hstep
    · exact (hbefore fs' hfs').2.lastStep hstep
  · intro fs' hfs'
    rcases List.mem_cons.mp hfs' with rfl | hfs'
    · exact hends.links
    · exact fun d target hget => hlinks d target ((hbefore fs' hfs').1.links _ _ hget)
  · intro fs' hfs' l hl
    rcases List.mem_cons.mp hfs' with rfl | hfs'
    · rcases hends.untouched l hl with h | ⟨hnone, hheld, d, name, hstep, rfl⟩
      · exact .inl h
      · exact .inr ⟨hnone, hheld, s.fs, List.mem_cons_of_mem _ hmem, d, name, hstep, rfl⟩
    · exact .inl ((hbefore fs' hfs').1.untouched l hl)

theorem Moments.isTarget (h : Moments w fs states s failure) {d : Location} {name : Text}
    (hstep : s.fs.lastStep w.path = .ok (d, name)) : w.IsTarget states (d ++ [name]) :=
  ⟨s.fs, h.mem, d, name, hstep, rfl⟩

theorem Moments.eq_handle (h : Moments w fs states s failure) (hopened : HasOpen w s content)
    {fs' : FileSystem} (hfs' : fs' ∈ states) {l : Location} {e : Entry}
    (hfound : fs'.resolve false w.temporary = .ok (.found l e)) : l = s.handle := by
  obtain ⟨front, hpieces⟩ := w.exists_pieces_temporary
  obtain ⟨d, hstep, hhandle⟩ := hopened.place
  obtain ⟨d', hstep', -, ⟨-, hplace⟩ | ⟨e', -, hplace⟩⟩ :=
    lastStep_of_resolve_name hpieces w.componentOf?_temporaryName (h.links fs' hfs') hfound
  · cases hplace
  · cases hplace
    cases hstep.symm.trans (h.lastStep fs' hfs' _ _ hstep')
    exact hhandle.symm

/-- A template that is to be replaced, next to nothing else. -/
def Sample.template : FileSystem :=
  ⟨[(["views".toList], .directory),
    (["views".toList, "page.twig".toList], .file "old".toUTF8 false)], []⟩

def Sample.replacement : AtomicWrite := ⟨.ofString "/views/page.twig", "new".toUTF8, 7⟩

end AtomicWrite

end ExtensionAudit
