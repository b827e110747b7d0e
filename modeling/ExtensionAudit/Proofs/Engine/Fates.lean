import ExtensionAudit.Engine.Templates
import ExtensionAudit.Proofs.Engine.Runs
import ExtensionAudit.Proofs.Files.Replacing
/-
  What becomes of the files of a migrating run. The fate of a file is settled by
  its own text, by the migrations and by the fault that its own writing meets; a run
  gives every file the fate that it has in the file system the run begins with,
  whatever became of the files before it.

  Main statements: `Treated.next` (one file) and `Run.migrate_files`.
-/

namespace ExtensionAudit

open Markup FileSystem

namespace Template

/-- What becomes of a file: it is not read, not parsed or not fixed, nothing is to be changed, it
is not written, or it is rewritten with a text. -/
inductive Fate where
  | unreadable (kind : IoKind)
  | unparseable (e : Unterminated)
  | unfixable (migration : String) (failure : Failure)
  | unchanged
  | unwritable (failure : Failure)
  | rewritten (text : String)
  deriving DecidableEq, Repr

namespace Fate

/-- The error that is reported of a file, which is shown under another path. -/
def finding? (file : Path) (shown : String) : Fate → Option Finding
  | .unreadable kind => some (.error shown "template.parse" (Failure.io file kind).message)
  | .unparseable e => some ((Finding.error shown "template.parse" e.message).atLine e.line)
  | .unfixable id failure => some (.error shown "fixer.apply" (id ++ ": " ++ failure.message))
  | .unwritable failure => some (.error shown "fixer.apply" failure.message)
  | .unchanged => none
  | .rewritten _ => none

def isRewritten : Fate → Bool
  | .rewritten _ => true
  | _ => false

theorem finding?_eq_none_iff {file : Path} {shown : String} {fate : Fate} :
    fate.finding? file shown = none ↔ fate = .unchanged ∨ fate.isRewritten = true := by
  cases fate <;> simp [finding?, isRewritten]

theorem finding?_eq_some {file : Path} {shown : String} {fate : Fate} {f : Finding}
    (h : fate.finding? file shown = some f) : f.severity = .error ∧ f.path = shown := by
  cases fate <;> cases h <;> exact ⟨rfl, rfl⟩

end Fate

/-- One migration on a tree, beside whether a change has been reported. -/
def fixNext (tree : List Node × Bool) (e : RegistryEntry) :
    Except (String × Failure) (List Node × Bool) :=
  match e.migration.fix tree.1 with
  | .error failure => .error (e.migration.id, failure)
  | .ok (nodes, changes) => .ok (nodes, tree.2 || changes)

/-- The tree after all migrations, each applied to what the ones before it have left, and whether
one of them has reported a change; or the first that fails. -/
def fixInOrder (entries : List RegistryEntry) (nodes : List Node) :
    Except (String × Failure) (List Node × Bool) :=
  entries.foldlM fixNext (nodes, false)

/-- The fate of a file in a file system. -/
def fateOf (process : WritingProcess) (entries : List RegistryEntry) (fs : FileSystem)
    (file : Path) : Fate :=
  match fs.readText file with
  | .error kind => .unreadable kind
  | .ok source =>
    match Document.parse source with
    | .error e => .unparseable e
    | .ok d =>
      match fixInOrder entries d.nodes with
      | .error (id, failure) => .unfixable id failure
      | .ok (_, false) => .unchanged
      | .ok (nodes, true) =>
        match (fs.writeText file (Document.mk nodes).render process).2 with
        | some failure => .unwritable failure
        | none => .rewritten (Document.mk nodes).render

/-- The temporary file in place of which a file is rewritten. -/
def temporaryOf (process : WritingProcess) (file : Path) : Path :=
  AtomicWrite.temporary ⟨file, .empty, process.number⟩

/-- The places where a file leaves something: that of its name where it is rewritten, and that of
the temporary file where a fault ends the writing. -/
def touched (process : WritingProcess) (entries : List RegistryEntry) (fs : FileSystem)
    (file : Path) : List Location :=
  match fateOf process entries fs file with
  | .rewritten _ => (fs.placeOf? file).toList
  | .unwritable _ =>
    match fs.openEmpty (temporaryOf process file), process.fault file with
    | .ok (_, l), some _ => [l]
    | _, _ => []
  | _ => []

/-- The places that settle the fate of a file: those that its path passes and, where that leads to
a file, those that the path of the temporary file passes. -/
def consulted (process : WritingProcess) (fs : FileSystem) (file : Path) : List Location :=
  fs.passedBy file ++ if fs.isFile file then fs.passedBy (temporaryOf process file) else []

/-- Neither of two files leaves something in a place that settles the fate of the other. -/
def Apart (process : WritingProcess) (entries : List RegistryEntry) (fs : FileSystem)
    (p q : Path) : Prop :=
  (∀ l ∈ touched process entries fs p, l ∉ consulted process fs q) ∧
    ∀ l ∈ touched process entries fs q, l ∉ consulted process fs p

instance (process : WritingProcess) (entries : List RegistryEntry) (fs : FileSystem)
    (p q : Path) : Decidable (Apart process entries fs p q) :=
  inferInstanceAs (Decidable (_ ∧ _))

/-- Whether nothing that could be opened stands where the temporary file of a file is put. -/
def hasRoom (process : WritingProcess) (fs : FileSystem) (file : Path) : Bool :=
  match fs.isFile file, fs.resolve false (temporaryOf process file),
    fs.openEmpty (temporaryOf process file) with
  | true, .ok (.found _ _), .ok _ => false
  | _, _, _ => true

theorem fixAll_eq_fixInOrder (entries : List RegistryEntry) (nodes : List Node) :
    (fixAll entries nodes false).1 = fixInOrder entries nodes := by
  unfold fixInOrder
  generalize false = changed
  induction entries generalizing nodes changed with
  | nil => rfl
  | cons e entries ih =>
    rw [List.foldlM_cons]
    cases hfix : e.migration.fix nodes with
    | error failure =>
      simp only [fixAll, fixNext, hfix]
      rfl
    | ok result =>
      simp only [fixAll, fixNext, hfix]
      exact ih result.1 (changed || result.2)

theorem fixAll_cancels {entries : List RegistryEntry}
    (h : ∀ e ∈ entries, e.migration.cancels = false) (nodes : List Node) (changed : Bool) :
    (fixAll entries nodes changed).2 = false := by
  induction entries generalizing nodes changed with
  | nil => rfl
  | cons e entries ih =>
    have he := h e List.mem_cons_self
    rw [fixAll]
    cases e.migration.fix nodes with
    | error failure => exact he
    | ok result =>
      simp only [he, Bool.false_or]
      exact ih (fun e' he' => h e' (List.mem_cons_of_mem e he')) _ _

/-! ## One file -/

section File

variable {process process' : WritingProcess} {entries : List RegistryEntry}
  {fs fs₀ : FileSystem} {file p q : Path} {places : List Location} {o l : Location}

theorem passedBy_subset_consulted (process : WritingProcess) (fs : FileSystem) (file : Path) :
    fs.passedBy file ⊆ consulted process fs file :=
  List.subset_append_left _ _

theorem replaceable_of_filled (hroom : hasRoom process fs₀ file = true)
    (h : Filled places fs₀ fs) (hp : ∀ l ∈ consulted process fs₀ file, l ∉ places)
    (hends : EndsAt fs file o) (hfile : fs₀.isFile file = true) :
    Replaceable fs file process.number o := by
  have htemporary : ∀ l ∈ fs₀.passedBy (temporaryOf process file), l ∉ places := by
    intro l hl
    exact hp l (List.mem_append_right _ (by rwa [if_pos hfile]))
  have hopen := h.openEmpty htemporary
  refine ⟨hends, fun k e hfound => ?_⟩
  have hfound₀ : fs₀.resolve false (temporaryOf process file) = .ok (.found k e) :=
    (h.resolve htemporary).symm.trans hfound
  have hopen₀ : ∃ kind, fs₀.openEmpty (temporaryOf process file) = .error kind := by
    unfold hasRoom at hroom
    rw [hfile, hfound₀] at hroom
    cases hopened : fs₀.openEmpty (temporaryOf process file) with
    | error kind => exact ⟨kind, rfl⟩
    | ok opened =>
      rw [hopened] at hroom
      cases hroom
  obtain ⟨kind, hkind⟩ := hopen₀
  rw [hkind] at hopen
  show ∃ kind, fs.openEmpty (temporaryOf process file) = .error kind
  cases hopened : fs.openEmpty (temporaryOf process file) with
  | error kind => exact ⟨kind, rfl⟩
  | ok opened =>
    rw [hopened] at hopen
    cases hopen

/-- The fate of a file depends on the places that settle it and on the fault of its own writing, and
on nothing that files in other places hold. -/
theorem fateOf_of_filled (hroom : hasRoom process fs₀ file = true)
    (h : Filled places fs₀ fs) (hp : ∀ l ∈ consulted process fs₀ file, l ∉ places)
    (hnumber : process'.number = process.number)
    (hfault : process'.fault file = process.fault file) :
    fateOf process' entries fs file = fateOf process entries fs₀ file := by
  have hbytes : fs.readBytes file = fs₀.readBytes file :=
    h.readBytes fun l hl => hp l (passedBy_subset_consulted process fs₀ file hl)
  have htext := FileSystem.readText_of_readBytes hbytes
  unfold fateOf
  rw [htext]
  cases hread : fs₀.readText file with
  | error kind => rfl
  | ok source =>
    -- the write is refused at the same step, or fails with the fault, in both file systems
    have hwrite (text : String) :
        (fs.writeText file text process').2 = (fs₀.writeText file text process).2 := by
      obtain ⟨l₀, hl₀⟩ := FileSystem.leadsTo_of_readText hread
      obtain ⟨l, hl⟩ := FileSystem.leadsTo_of_readText (htext.trans hread)
      have hfile : fs₀.isFile file = true := FileSystem.isFile_iff.mpr ⟨l₀, hl₀⟩
      obtain ⟨o₀, ho₀⟩ := hl₀.endsAt
      obtain ⟨o, ho⟩ := hl.endsAt
      have hr₀ : Replaceable fs₀ file process.number o₀ :=
        replaceable_of_filled hroom (.refl [] fs₀) (by simp) ho₀ hfile
      have hr : Replaceable fs file process'.number o :=
        hnumber ▸ replaceable_of_filled hroom h hp ho hfile
      obtain ⟨after₀, hwrite₀, -⟩ := hr₀.writeText_cases text
      obtain ⟨after, hwrite, -⟩ := hr.writeText_cases text
      have hopen : (fs.openEmpty (temporaryOf process file)).map (·.2) =
          (fs₀.openEmpty (temporaryOf process file)).map (·.2) :=
        h.openEmpty fun l hl => hp l (List.mem_append_right _ (by rwa [if_pos hfile]))
      rw [hwrite, hwrite₀, hfault, hnumber]
      exact congrArg (AtomicWrite.failure? _ _) hopen
    simp only [hwrite]

/-- How a file is treated: it is reported, or written, or writing it was refused. -/
theorem treat_cases (process : WritingProcess)
    (hquiet : ∀ e ∈ entries, e.migration.cancels = false) (root : Path) (fs : FileSystem)
    (file : Path) :
    ∃ after, treat process entries .fix root fs file =
        ⟨((fateOf process entries fs file).finding? file (Path.relativeTo root file)).toList, after,
          (fateOf process entries fs file).isRewritten, false⟩ ∧
      ((after = fs ∧ (fateOf process entries fs file).isRewritten = false) ∨
        (∃ text failure, fs.writeText file text process = (after, some failure) ∧
          fateOf process entries fs file = .unwritable failure) ∨
        ∃ text, fs.writeText file text process = (after, none) ∧
          fateOf process entries fs file = .rewritten text) := by
  unfold treat fateOf
  cases fs.readText file with
  | error kind => exact ⟨fs, rfl, .inl ⟨rfl, rfl⟩⟩
  | ok source =>
    simp only
    cases Document.parse source with
    | error e => exact ⟨fs, rfl, .inl ⟨rfl, rfl⟩⟩
    | ok d =>
      have hcancels := fixAll_cancels hquiet d.nodes false
      simp only [fix, ← fixAll_eq_fixInOrder]
      generalize fixAll entries d.nodes false = x at hcancels ⊢
      obtain ⟨result, cancels⟩ := x
      obtain rfl : cancels = false := hcancels
      rcases result with ⟨id, failure⟩ | ⟨nodes, _ | _⟩
      · exact ⟨fs, rfl, .inl ⟨rfl, rfl⟩⟩
      · exact ⟨fs, rfl, .inl ⟨rfl, rfl⟩⟩
      · simp only
        cases hwrite : fs.writeText file (Document.mk nodes).render process with
        | mk after failed =>
          cases failed with
          | none => exact ⟨after, rfl, .inr (.inr ⟨_, hwrite, rfl⟩)⟩
          | some failure => exact ⟨after, rfl, .inr (.inl ⟨_, failure, hwrite, rfl⟩)⟩

theorem isFile_of_fate {fate : Fate} (h : fateOf process entries fs file = fate)
    (hreadable : ∀ kind, fate ≠ .unreadable kind) : fs.isFile file = true := by
  cases hread : fs.readText file with
  | error kind =>
    refine (hreadable kind ?_).elim
    rw [← h, fateOf, hread]
  | ok source => exact FileSystem.isFile_iff.mpr (FileSystem.leadsTo_of_readText hread)

theorem exists_replaceable (hroom : hasRoom process fs file = true)
    (hfile : fs.isFile file = true) : ∃ o, Replaceable fs file process.number o := by
  obtain ⟨l, hl⟩ := FileSystem.isFile_iff.mp hfile
  obtain ⟨o, ho⟩ := hl.endsAt
  exact ⟨o, replaceable_of_filled hroom (.refl [] fs) (by simp) ho hfile⟩

/-! ## Files that are apart -/

theorem Apart.symm (h : Apart process entries fs p q) : Apart process entries fs q p := ⟨h.2, h.1⟩

theorem apart_of_mem {files : List Path} (h : files.Pairwise (Apart process entries fs))
    (hp : p ∈ files) (hq : q ∈ files) (hne : p ≠ q) : Apart process entries fs p q := by
  obtain ⟨front, back, rfl⟩ := List.append_of_mem hp
  obtain ⟨-, hback, hacross⟩ := List.pairwise_append.mp h
  rcases List.mem_append.mp hq with hq | hq
  · exact (hacross q hq p List.mem_cons_self).symm
  · rcases List.mem_cons.mp hq with rfl | hq
    · exact absurd rfl hne
    · exact (List.pairwise_cons.mp hback).1 q hq

theorem touched_of_rewritten {text : String}
    (hfate : fateOf process entries fs file = .rewritten text) (ho : EndsAt fs file o) :
    touched process entries fs file = [o] := by
  unfold touched
  rw [hfate, ho.placeOf?]
  rfl

/-- A file that a fault keeps from being written leaves its temporary file where that was opened. -/
theorem mem_touched_of_unwritable {failure : Failure}
    (hfate : fateOf process entries fs file = .unwritable failure)
    (hopen : (fs.openEmpty (temporaryOf process file)).map (·.2) = .ok l)
    (hfault : (process.fault file).isSome = true) : l ∈ touched process entries fs file := by
  obtain ⟨f, hf⟩ := Option.isSome_iff_exists.mp hfault
  unfold touched
  rw [hfate]
  cases hopened : fs.openEmpty (temporaryOf process file) with
  | error kind =>
    rw [hopened] at hopen
    cases hopen
  | ok opened =>
    rw [hopened] at hopen
    cases hopen
    simp [hf]

/-- A file that is not rewritten leaves at most its temporary file, where nothing stood. -/
theorem leftover_of_touched (hroom : hasRoom process fs file = true)
    (hfate : (fateOf process entries fs file).isRewritten = false)
    (hl : l ∈ touched process entries fs file) :
    fs.get? l = none ∧ process.fault file ≠ none ∧
      (∃ opened, fs.openEmpty (temporaryOf process file) = .ok (opened, l)) ∧
      ∃ failure, fateOf process entries fs file = .unwritable failure := by
  cases hunwritable : fateOf process entries fs file with
  | unwritable failure =>
    obtain ⟨o, ho⟩ := exists_replaceable hroom (isFile_of_fate hunwritable nofun)
    unfold touched at hl
    rw [hunwritable] at hl
    have hcases : (∃ kind, fs.openEmpty (temporaryOf process file) = .error kind) ∨
        ∃ k, fs.resolve false (temporaryOf process file) = .ok (.missing k []) ∧
          fs.openEmpty (temporaryOf process file) = .ok (fs.put k (.file .empty false), k) :=
      Replaceable.openEmpty_cases (w := ⟨file, .empty, process.number⟩) ho
    rcases hcases with ⟨kind, hopen⟩ | ⟨k, hmissing, hopen⟩
    · rw [hopen] at hl
      cases hl
    · cases hfault : process.fault file with
      | none =>
        rw [hopen, hfault] at hl
        cases hl
      | some f =>
        rw [hopen, hfault] at hl
        obtain rfl := List.mem_singleton.mp hl
        exact ⟨get?_of_resolve_missing hmissing, nofun, ⟨_, hopen⟩, failure, rfl⟩
  | rewritten text =>
    rw [hunwritable] at hfate
    cases hfate
  | _ =>
    unfold touched at hl
    rw [hunwritable] at hl
    cases hl

theorem not_mem_passedBy (hroom : hasRoom process fs file = true)
    (hfate : (fateOf process entries fs file).isRewritten = false)
    (hl : l ∈ touched process entries fs file) : l ∉ fs.passedBy file := by
  obtain ⟨hnone, -, -, failure, hunwritable⟩ := leftover_of_touched hroom hfate hl
  obtain ⟨k, hk⟩ := FileSystem.isFile_iff.mp (isFile_of_fate hunwritable nofun)
  exact fun hmem => hk.exists_of_mem_passedBy hmem hnone

/-! ## One file after others -/

/-- What holds after these files have been treated, in a file system that was `fs₀` before: files
were put in the places that they touch, and those that are rewritten have their texts. -/
structure Treated (process : WritingProcess) (entries : List RegistryEntry) (fs₀ : FileSystem)
    (files : List Path) (fs : FileSystem) : Prop where
  filled : Filled (files.flatMap (touched process entries fs₀)) fs₀ fs
  rewritten : ∀ p ∈ files, ∀ text, fateOf process entries fs₀ p = .rewritten text →
    ∃ o, EndsAt fs₀ p o ∧ fs.get? o = some (.file text.toUTF8 false)

theorem Treated.nothing : Treated process entries fs₀ [] fs₀ :=
  ⟨.refl _ _, by simp⟩

section Next

variable {before : List Path} {after : FileSystem}
  (h : Treated process entries fs₀ before fs)
  (hapart : ∀ p ∈ before, Apart process entries fs₀ p file)

include hapart in
theorem not_mem_touched_before (hl : l ∈ consulted process fs₀ file) :
    l ∉ before.flatMap (touched process entries fs₀) := by
  intro hmem
  obtain ⟨p, hp, hl'⟩ := List.mem_flatMap.mp hmem
  exact (hapart p hp).1 l hl' hl

include h

/-- A file that is not rewritten leaves at most a temporary file, and the others are as they are. -/
theorem Treated.next_kept (hwd : after.workingDirectory = fs.workingDirectory)
    (hafter : ∀ l, after.get? l = fs.get? l ∨
      l ∈ touched process entries fs₀ file ∧ fs.get? l = none ∧
        ∃ content, after.get? l = some (.file content false))
    (hfate : (fateOf process entries fs₀ file).isRewritten = false) :
    Treated process entries fs₀ (before ++ [file]) after := by
  refine ⟨⟨hwd.trans h.filled.workingDirectory, fun l => ?_⟩, ?_⟩
  · rw [List.flatMap_append, List.mem_append]
    rcases hafter l with hsame | ⟨hl, hnone, content, hput⟩
    · rw [hsame]
      exact (h.filled.entries l).imp_right fun ⟨hmem, hrest⟩ => ⟨.inl hmem, hrest⟩
    · refine .inr ⟨.inr (by simpa using hl), fun hdir => ?_, content, false, hput⟩
      cases hnone.symm.trans (h.filled.get?_of_directory hdir)
  · intro p hp text hp'
    rcases List.mem_append.mp hp with hp | hp
    · obtain ⟨o, ho, hget⟩ := h.rewritten p hp text hp'
      refine ⟨o, ho, ?_⟩
      rcases hafter o with hsame | ⟨-, hnone, -⟩
      · rw [hsame, hget]
      · cases hnone.symm.trans hget
    · obtain rfl := List.mem_singleton.mp hp
      rw [hp'] at hfate
      cases hfate

include hapart

/-- A file that is rewritten has its new text in its place, and the others are as they are. -/
theorem Treated.next_rewritten {text : String} (hplaced : Placed o text.toUTF8 fs after)
    (ho : EndsAt fs₀ file o) (hfate : fateOf process entries fs₀ file = .rewritten text) :
    Treated process entries fs₀ (before ++ [file]) after := by
  have htouched := touched_of_rewritten hfate ho
  refine ⟨⟨hplaced.workingDirectory.trans h.filled.workingDirectory, fun l => ?_⟩, ?_⟩
  · rw [List.flatMap_append, List.mem_append]
    by_cases hl : l = o
    · obtain ⟨e, hget, he⟩ := ho.entry
      refine .inr ⟨.inr (by simp [htouched, hl]), ?_, _, _, by rw [hplaced.get?, if_pos hl]⟩
      rw [hl, hget]
      exact fun hdir => he (Option.some.inj hdir)
    · rw [hplaced.get?, if_neg hl]
      exact (h.filled.entries l).imp_right fun ⟨hmem, hrest⟩ => ⟨.inl hmem, hrest⟩
  · intro p hp text' hp'
    rcases List.mem_append.mp hp with hp | hp
    · -- a file rewritten before has its text in another place
      obtain ⟨o', ho', hget⟩ := h.rewritten p hp text' hp'
      have hne : o' ≠ o := by
        rintro rfl
        exact (hapart p hp).2 o' (by simp [htouched])
          (passedBy_subset_consulted process fs₀ p ho'.mem_passedBy)
      exact ⟨o', ho', by rw [hplaced.get?, if_neg hne, hget]⟩
    · obtain rfl := List.mem_singleton.mp hp
      obtain rfl : text = text' := by simpa [hfate] using hp'
      exact ⟨o, ho, by rw [hplaced.get?, if_pos rfl]⟩

/-- One step of a run: the next file meets the fate that it had in the beginning, and the others
stay as they are. -/
theorem Treated.next (root : Path) (hquiet : ∀ e ∈ entries, e.migration.cancels = false)
    (hroom : hasRoom process fs₀ file = true) :
    ∃ after, treat process entries .fix root fs file =
        ⟨((fateOf process entries fs₀ file).finding? file (Path.relativeTo root file)).toList,
          after, (fateOf process entries fs₀ file).isRewritten, false⟩ ∧
      Treated process entries fs₀ (before ++ [file]) after := by
  have hconsulted : ∀ l ∈ consulted process fs₀ file,
      l ∉ before.flatMap (touched process entries fs₀) := fun l => not_mem_touched_before hapart
  have hsame : fateOf process entries fs file = fateOf process entries fs₀ file :=
    fateOf_of_filled hroom h.filled hconsulted rfl rfl
  obtain ⟨after, htreat, hcases⟩ := treat_cases process hquiet root fs file
  rw [hsame] at htreat hcases
  refine ⟨after, htreat, ?_⟩
  -- only a file that was read is written, and its name stands for the place that it stood for
  have hwritten {fate : Fate} (hfate : fateOf process entries fs₀ file = fate)
      (hreadable : ∀ kind, fate ≠ .unreadable kind) :
      ∃ o, EndsAt fs₀ file o ∧ Replaceable fs file process.number o := by
    have hfile₀ := isFile_of_fate hfate hreadable
    obtain ⟨l₀, hl₀⟩ := FileSystem.isFile_iff.mp hfile₀
    obtain ⟨l, hl⟩ := FileSystem.isFile_iff.mp (isFile_of_fate (hsame.trans hfate) hreadable)
    obtain ⟨o₀, ho₀⟩ := hl₀.endsAt
    obtain ⟨o, ho⟩ := hl.endsAt
    have hplace : fs.placeOf? file = some o₀ := ho₀.placeOf?_of_filled h.filled fun l hl hmem =>
      absurd hmem (hconsulted l (passedBy_subset_consulted process fs₀ file hl))
    obtain rfl : o = o₀ := Option.some.inj (ho.placeOf?.symm.trans hplace)
    exact ⟨o, ho₀, replaceable_of_filled hroom h.filled hconsulted ho hfile₀⟩
  rcases hcases with ⟨rfl, hfate⟩ | ⟨text, failure, hwrite, hfate⟩ | ⟨text, hwrite, hfate⟩
  · exact h.next_kept rfl (fun _ => .inl rfl) hfate
  · obtain ⟨o, -, hreplaceable⟩ := hwritten hfate nofun
    have hkept : (fateOf process entries fs₀ file).isRewritten = false := by
      rw [hfate]
      rfl
    rcases hreplaceable.spared_of_writeText hwrite with rfl | ⟨opened, k, hopen, hfault, hspared⟩
    · exact h.next_kept rfl (fun _ => .inl rfl) hkept
    · have hfile := isFile_of_fate hfate nofun
      have hopen₀ := h.filled.openEmpty (p := temporaryOf process file) fun l hl =>
        hconsulted l (List.mem_append_right _ (by rwa [if_pos hfile]))
      have hopen' : fs.openEmpty (temporaryOf process file) = .ok (opened, k) := hopen
      rw [hopen'] at hopen₀
      have htouched := mem_touched_of_unwritable hfate hopen₀.symm hfault
      refine h.next_kept hspared.workingDirectory (fun l => ?_) hkept
      refine (hspared.get? l).imp_right ?_
      rintro ⟨rfl, hnone, content, hput⟩
      exact ⟨htouched, hnone, content, hput⟩
  · obtain ⟨o, ho, hreplaceable⟩ := hwritten hfate nofun
    exact h.next_rewritten hapart (hreplaceable.placed_of_writeText hwrite) ho hfate

end Next

theorem placeOf?_of_touched (hfate : (fateOf process entries fs file).isRewritten = true)
    (hl : l ∈ touched process entries fs file) : fs.placeOf? file = some l := by
  cases hrewritten : fateOf process entries fs file with
  | rewritten text =>
    unfold touched at hl
    rw [hrewritten] at hl
    simpa using hl
  | _ =>
    rw [hrewritten] at hfate
    cases hfate

theorem writeText_of_rewritten {text : String}
    (h : fateOf process entries fs file = .rewritten text) :
    (fs.writeText file text process).2 = none := by
  unfold fateOf at h
  split at h
  · cases h
  · split at h
    · cases h
    · split at h
      · cases h
      · cases h
      · split at h
        · cases h
        · rename_i hwrite
          cases h
          exact hwrite

theorem isRewritten_of_fault (hroom : hasRoom process fs file = true)
    (hfault : process.fault file ≠ none) :
    (fateOf process entries fs file).isRewritten = false := by
  cases hfate : fateOf process entries fs file with
  | rewritten text =>
    obtain ⟨o, ho⟩ := exists_replaceable hroom (isFile_of_fate hfate nofun)
    obtain ⟨after, hwrite, -⟩ := ho.writeText_cases text
    have hdone := writeText_of_rewritten hfate
    rw [hwrite] at hdone
    exact absurd hdone (AtomicWrite.failure?_ne_none hfault)
  | _ => rfl

/-! ## All files -/

section All

variable {files : List Path} (hapart : files.Pairwise (Apart process entries fs₀))
  (h : Treated process entries fs₀ files fs)

include hapart

theorem eq_of_mem_touched (hp : p ∈ files) (hl : l ∈ consulted process fs₀ p)
    (hmem : l ∈ files.flatMap (touched process entries fs₀)) :
    l ∈ touched process entries fs₀ p := by
  obtain ⟨q, hq, hl'⟩ := List.mem_flatMap.mp hmem
  by_cases hpq : p = q
  · rwa [hpq]
  · exact absurd hl ((apart_of_mem hapart hp hq hpq).2 l hl')

include h

theorem Treated.readText (hp : p ∈ files) {text : String}
    (hfate : fateOf process entries fs₀ p = .rewritten text) : fs.readText p = .ok text := by
  obtain ⟨o, ho, hget⟩ := h.rewritten p hp text hfate
  refine FileSystem.readText_of_target (ho.target h.filled (fun l hl hmem => ?_) hget)
  have hown := eq_of_mem_touched hapart hp (passedBy_subset_consulted process fs₀ p hl) hmem
  rw [touched_of_rewritten hfate ho] at hown
  exact List.mem_singleton.mp hown

theorem Treated.readBytes (hp : p ∈ files) (hroom : hasRoom process fs₀ p = true)
    (hfate : (fateOf process entries fs₀ p).isRewritten = false) :
    fs.readBytes p = fs₀.readBytes p := by
  refine h.filled.readBytes fun l hl hmem => ?_
  have hown := eq_of_mem_touched hapart hp (passedBy_subset_consulted process fs₀ p hl) hmem
  exact not_mem_passedBy hroom hfate hown hl

omit hapart in
/-- A path reads what it read where none of the files leaves something in its way. -/
theorem Treated.readBytes_of_apart (hp : ∀ q ∈ files, Apart process entries fs₀ q p) :
    fs.readBytes p = fs₀.readBytes p :=
  h.filled.readBytes fun _ hl =>
    not_mem_touched_before hp (passedBy_subset_consulted process fs₀ p hl)

end All

end File

end Template

namespace Run

open Template

theorem visitFiles_treated {process : WritingProcess} {entries : List RegistryEntry}
    {fs₀ : FileSystem} {files : List Path} {w : World} (root : Path) (before : List Path)
    (done : Outcome) (hquiet : ∀ e ∈ entries, e.migration.cancels = false)
    (hnever : w.cancellation = .never)
    (hapart : (before ++ files).Pairwise (Apart process entries fs₀))
    (hroom : ∀ p ∈ files, hasRoom process fs₀ p = true)
    (h : Treated process entries fs₀ before w.fs) :
    ∃ after, (visitFiles process entries .fix root done files).runIn w =
        (.ok (done.append
          ⟨files.filterMap fun p =>
            (fateOf process entries fs₀ p).finding? p (Path.relativeTo root p),
          files.filter fun p => (fateOf process entries fs₀ p).isRewritten⟩),
          { w with fs := after }) ∧
      Treated process entries fs₀ (before ++ files) after := by
  -- on the files still to come; `Treated` holds of those behind, each with its fate in `fs₀`
  induction files generalizing before w done with
  | nil =>
    refine ⟨w.fs, ?_, by rwa [List.append_nil]⟩
    rw [visitFiles, runIn_pure]
    simp [Outcome.append]
  | cons file files ih =>
    have hfile : ∀ p ∈ before, Apart process entries fs₀ p file := fun p hp =>
      (List.pairwise_append.mp hapart).2.2 p hp file List.mem_cons_self
    obtain ⟨after, htreat, hafter⟩ := h.next hfile root hquiet (hroom file List.mem_cons_self)
    rw [List.append_cons] at hapart
    obtain ⟨last, hrun, hlast⟩ := ih (w := { w with fs := after }) (before ++ [file])
      (done.append ⟨((fateOf process entries fs₀ file).finding? file
        (Path.relativeTo root file)).toList,
        if (fateOf process entries fs₀ file).isRewritten then [file] else []⟩) hnever hapart
      (fun p hp => hroom p (List.mem_cons_of_mem _ hp)) hafter
    refine ⟨last, ?_, by rwa [List.append_cons]⟩
    rw [visitFiles, runIn_bind, runIn_checkpoint hnever]
    simp only [runIn_bind, runIn_get, htreat, runIn_modify, runIn_cancelIf_false, hrun,
      Prod.mk.injEq, Except.ok.injEq, and_true]
    simp only [Outcome.append, List.filterMap_cons, List.filter_cons, List.append_assoc]
    congr 2
    · cases (fateOf process entries fs₀ file).finding? file (Path.relativeTo root file) <;> rfl
    · split <;> rfl

theorem migrate_of_applicable {s : Setup} {a : Area} {v : Version} {root : Path}
    {files : List Path} {mode : Mode} (h : s.registry.applicable a v ≠ []) :
    migrate s root a v files mode =
      visitFiles s.process (s.registry.applicable a v) mode root .empty files := by
  unfold migrate
  split
  · contradiction
  · rfl

/-- Migrating files is atomic for each of them and independent of the others, whichever writes fail
and at whichever step. In a run that is not cancelled, over files that are apart and leave room for
temporary files, a file that is not rewritten keeps its bytes, and one whose writing meets a fault
is not rewritten; a rewritten one holds the tree after all migrations in their order, in the place
of its name, and nothing else changes but for temporary files that faults leave where nothing stood.
Every failure is one error under the path of its file. The fate of a file is the one that it has
before the run, and depends on the places that settle it and on its own fault only. -/
theorem migrate_files {s : Setup} {root : Path} {a : Area} {v : Version} {files : List Path}
    {w : World} (hentries : s.registry.applicable a v ≠ [])
    (hquiet : ∀ e ∈ s.registry.applicable a v, e.migration.cancels = false)
    (hnever : w.cancellation = .never)
    (hapart : files.Pairwise (Apart s.process (s.registry.applicable a v) w.fs))
    (hroom : ∀ p ∈ files, hasRoom s.process w.fs p = true) :
    let fate := fun process => fateOf process (s.registry.applicable a v)
    ∃ after, (migrate s root a v files .fix).runIn w =
        (.ok ⟨files.filterMap fun p =>
            (fate s.process w.fs p).finding? p (Path.relativeTo root p),
          files.filter fun p => (fate s.process w.fs p).isRewritten⟩, { w with fs := after }) ∧
      (∀ p ∈ files, ∀ text, fate s.process w.fs p = .rewritten text →
        after.readText p = .ok text) ∧
      (∀ p ∈ files, (fate s.process w.fs p).isRewritten = false →
        after.readBytes p = w.fs.readBytes p) ∧
      (∀ p ∈ files, s.process.fault p ≠ none → (fate s.process w.fs p).isRewritten = false) ∧
      (∀ l, after.get? l = w.fs.get? l ∨
        (∃ p ∈ files, (fate s.process w.fs p).isRewritten = true ∧ w.fs.placeOf? p = some l) ∨
        (w.fs.get? l = none ∧ ∃ p ∈ files, s.process.fault p ≠ none ∧
          ∃ opened, w.fs.openEmpty (temporaryOf s.process p) = .ok (opened, l))) ∧
      (∀ p, ((fate s.process w.fs p).finding? p (Path.relativeTo root p) = none ↔
          fate s.process w.fs p = .unchanged ∨ (fate s.process w.fs p).isRewritten = true) ∧
        ∀ f, (fate s.process w.fs p).finding? p (Path.relativeTo root p) = some f →
          f.severity = .error ∧ f.path = Path.relativeTo root p) ∧
      ∀ p ∈ files, ∀ fs places process, Filled places w.fs fs →
        (∀ l ∈ consulted s.process w.fs p, l ∉ places) →
        process.number = s.process.number → process.fault p = s.process.fault p →
        fate process fs p = fate s.process w.fs p := by
  intro fate
  obtain ⟨after, hrun, hafter⟩ :=
    visitFiles_treated root [] .empty hquiet hnever hapart hroom .nothing
  refine ⟨after, ?_, fun p hp text => hafter.readText hapart hp,
    fun p hp => hafter.readBytes hapart hp (hroom p hp),
    fun p hp => isRewritten_of_fault (hroom p hp), fun l => ?_,
    fun p => ⟨Fate.finding?_eq_none_iff, fun f => Fate.finding?_eq_some⟩,
    fun p hp fs places process => fateOf_of_filled (hroom p hp)⟩
  · rw [migrate_of_applicable hentries]
    exact hrun
  · refine (hafter.filled.entries l).imp_right fun ⟨hmem, _⟩ => ?_
    obtain ⟨p, hp, hl⟩ := List.mem_flatMap.mp hmem
    -- in a place that changed stands what a file was rewritten to, or what a fault left there
    cases hfate : (fate s.process w.fs p).isRewritten with
    | true => exact .inl ⟨p, hp, hfate, placeOf?_of_touched hfate hl⟩
    | false =>
      obtain ⟨hnone, hfault, hopen, -⟩ := leftover_of_touched (hroom p hp) hfate hl
      exact .inr ⟨hnone, p, hp, hfault, hopen⟩

/-! A run in which the files meet every fate. -/

namespace Sample

/-- A migration that fails on a tree with a `bad` element. -/
def strict : Migration where
  id := "strict"
  description := "Refuses bad elements"
  check _ := []
  fix nodes :=
    if (Node.elementsAll nodes).any (·.tag == "bad".toList) then
      .error (.unavailable "strict" "bad")
    else .ok (nodes, false)
  cancels := false

/-- A rename, and behind it the migration that may fail, for every version. The writing of `g` fails
as it is synced, that of `h` as it is locked. -/
def setup : Setup where
  registry := ⟨[⟨.storefront, ⟨[[]], "*"⟩, (Rename.element "sw-a".toList "mt-a".toList).migration⟩,
    ⟨.storefront, ⟨[[]], "*"⟩, strict⟩]⟩
  table := .static []
  linter := ⟨fun _ _ _ => .ok [], false⟩
  process := ⟨7, fun p =>
    if p = .ofString "/t/g" then some ⟨.sync, .busy, 0⟩
    else if p = .ofString "/t/h" then some ⟨.lock, .busy, 0⟩
    else none⟩

/-- The file `d` is missing, a directory stands where `f` has its temporary file, and `i` is a link
to a file elsewhere. -/
def world : World where
  fs := ⟨[(["t".toList], .directory),
    (["t".toList, "a".toList], .file "<sw-a/>".toUTF8 true),
    (["t".toList, "b".toList], .file "<sw-a><bad>".toUTF8 false),
    (["t".toList, "c".toList], .file "<a>\n\x7b\x7bx".toUTF8 false),
    (["t".toList, "e".toList], .file "<a/>".toUTF8 false),
    (["t".toList, "f".toList], .file "<sw-a/>".toUTF8 false),
    (["t".toList, ".f.7.tmp".toList], .directory),
    (["t".toList, "g".toList], .file "<sw-a/>".toUTF8 false),
    (["t".toList, "h".toList], .file "<sw-a/>".toUTF8 false),
    (["t".toList, "i".toList], .link (.ofString "../u")),
    (["u".toList], .file "<sw-a/>".toUTF8 false)], ["t".toList]⟩
  cancellation := .never
  lintCalls := []

def listed : List Path :=
  ["a", "b", "c", "d", "e", "f", "g", "h", "i"].map fun name => .ofString ("/t/" ++ name)

end Sample

/-- Of nine files with all fates the first and the last are rewritten; in the second, the migration
that fails undoes the rename before it, and two later ones are left by writes that fail. What the
last one was a link to keeps its bytes. -/
theorem migrate_files_of_every_fate :
    let v := Version.release 6 7 0 0
    let entries := Sample.setup.registry.applicable .storefront v
    let fate := fateOf Sample.setup.process entries
    entries ≠ [] ∧ (∀ e ∈ entries, e.migration.cancels = false) ∧
      Sample.world.cancellation = .never ∧
      Sample.listed.Pairwise (Apart Sample.setup.process entries Sample.world.fs) ∧
      (∀ p ∈ Sample.listed, hasRoom Sample.setup.process Sample.world.fs p = true) ∧
      Sample.listed.map (fate Sample.world.fs) = [.rewritten "<mt-a/>",
        .unfixable "strict" (.unavailable "strict" "bad"), .unparseable ⟨.twigExpression, 2⟩,
        .unreadable .notFound, .unchanged,
        .unwritable (.io (.ofString "/t/.f.7.tmp") .isADirectory),
        .unwritable (.io (.ofString "/t/.g.7.tmp") .busy),
        .unwritable (.lockFailed (.ofString "/t/h")), .rewritten "<mt-a/>"] ∧
      ∃ outcome after,
        (migrate Sample.setup (.ofString "/t") .storefront v Sample.listed .fix).runIn
          Sample.world = (.ok outcome, { Sample.world with fs := after }) ∧
        outcome.fixed = [.ofString "/t/a", .ofString "/t/i"] ∧
        outcome.findings.map (·.path) = ["b", "c", "d", "f", "g", "h"] ∧
        (∀ p ∈ outcome.fixed, after.readText p = .ok "<mt-a/>") ∧
        (∀ p ∈ Sample.listed, p ∉ outcome.fixed →
          after.readBytes p = Sample.world.fs.readBytes p) ∧
        after.get? ["u".toList] = Sample.world.fs.get? ["u".toList] := by
  intro v entries fate
  have hentries : entries = Sample.setup.registry.entries := rfl
  have hne : entries ≠ [] := by
    rw [hentries]
    exact List.cons_ne_nil _ _
  have hquiet : ∀ e ∈ entries, e.migration.cancels = false := by
    rw [hentries]
    simp [Sample.setup, Sample.strict, Rename.migration]
  have hapart : Sample.listed.Pairwise (Apart Sample.setup.process entries Sample.world.fs) := by
    decide +kernel
  have hroom : ∀ p ∈ Sample.listed, hasRoom Sample.setup.process Sample.world.fs p = true := by
    decide +kernel
  have hfates : ∀ p ∈ Sample.listed,
      if p ∈ [Path.ofString "/t/a", .ofString "/t/i"] then
        fate Sample.world.fs p = .rewritten "<mt-a/>"
      else (fate Sample.world.fs p).isRewritten = false := by
    decide +kernel
  obtain ⟨after, hrun, hrewritten, hbytes, -, hplaces, -⟩ :=
    @migrate_files Sample.setup (.ofString "/t") .storefront v Sample.listed Sample.world hne hquiet
      rfl hapart hroom
  have hfixed : (Sample.listed.filter fun p => (fate Sample.world.fs p).isRewritten) =
      [.ofString "/t/a", .ofString "/t/i"] := by
    decide +kernel
  refine ⟨hne, hquiet, rfl, hapart, hroom, by decide +kernel, _, after, hrun, hfixed,
    by decide +kernel, fun p hp => ?_, fun p hp hnot => ?_, ?_⟩
  · have hlisted := (List.mem_filter.mp hp).1
    have hfate := hfates p hlisted
    rw [if_pos (hfixed ▸ hp)] at hfate
    exact hrewritten p hlisted "<mt-a/>" hfate
  · have hfate := hfates p hp
    rw [if_neg (hfixed ▸ hnot)] at hfate
    exact hbytes p hp hfate
  · rcases hplaces ["u".toList] with hsame | ⟨p, hp, -, hplace⟩ | ⟨hnone, -⟩
    · exact hsame
    · -- no listed name stands for the place that the link leads to
      have helsewhere : ∀ p ∈ Sample.listed,
          Sample.world.fs.placeOf? p ≠ some ["u".toList] := by
        decide +kernel
      exact absurd hplace (helsewhere p hp)
    · cases hnone

end Run

end ExtensionAudit
