import Mathlib.Data.Nat.Find
import ExtensionAudit.Engine.Validate
import ExtensionAudit.Proofs.Engine.Fates
import ExtensionAudit.Proofs.Engine.Searching
/-
  Interrupted runs. Cancellation comes from outside or from a migration, and ends a
  run in front of a file. What was treated until then is what a run over those files
  alone would have treated that nothing cancels, and a run that is cancelled before it
  begins changes nothing.

  Main statement: `Run.interrupted_cleanly`.
-/

namespace ExtensionAudit

/-! ## Cancellation as an oracle -/

namespace Cancellation

theorem pass?_eq_none_iff {c : Cancellation} : c.pass? = none ↔ c = .cancelled := by
  obtain ⟨_ | _ | n⟩ := c <;> simp [pass?, cancelled]

theorem isSome_passAll?_some (n k : Nat) :
    ((Cancellation.mk (some n)).passAll? k).isSome = true ↔ k ≤ n := by
  induction k generalizing n with
  | zero => simp [passAll?]
  | succ k ih =>
    cases n with
    | zero => simp [passAll?, pass?]
    | succ n => simpa [passAll?, pass?] using ih n

/-- Whatever answers the checkpoints of a run in their order, the run passes as many of them as
under a cancellation: it ends at the first answer that cancels it and sees no other behind. -/
theorem exists_of_oracle (cancels : Nat → Bool) :
    ∃ c : Cancellation, ∀ k, (c.passAll? k).isSome = true ↔ ∀ i < k, cancels i = false := by
  by_cases hever : ∃ i, cancels i = true
  · refine ⟨⟨some (Nat.find hever)⟩, fun k => ?_⟩
    rw [isSome_passAll?_some, Nat.le_find_iff]
    simp only [Bool.not_eq_true]
  · refine ⟨.never, fun k => ?_⟩
    simp only [passAll?_never, Option.isSome_some, true_iff]
    intro i _
    simpa using not_exists.mp hever i

end Cancellation

/-! ## Migrations that cancel nothing -/

def Migration.quiet (m : Migration) : Migration := { m with cancels := false }

/-- The entry with a migration that cancels nothing. -/
def RegistryEntry.quiet (e : RegistryEntry) : RegistryEntry :=
  { e with migration := e.migration.quiet }

/-- The same run with migrations that cancel nothing. -/
def Setup.quiet (s : Setup) : Setup := { s with registry := ⟨s.registry.entries.map (·.quiet)⟩ }

theorem Setup.applicable_quiet (s : Setup) (a : Area) (v : Version) :
    s.quiet.registry.applicable a v = (s.registry.applicable a v).map (·.quiet) := by
  rw [Registry.applicable, Registry.applicable, Setup.quiet, List.filter_map]
  rfl

theorem quiet_cancels {entries : List RegistryEntry} :
    ∀ e ∈ entries.map (·.quiet), e.migration.cancels = false := by
  intro e he
  obtain ⟨e, -, rfl⟩ := List.mem_map.mp he
  rfl

theorem map_quiet_of_not_cancels {entries : List RegistryEntry}
    (h : ∀ e ∈ entries, e.migration.cancels = false) : entries.map (·.quiet) = entries := by
  rw [List.map_congr_left (g := id), List.map_id]
  rintro ⟨area, appliesTo, migration⟩ he
  have hcancels : migration.cancels = false := h _ he
  simp only [RegistryEntry.quiet, Migration.quiet, ← hcancels, id]

namespace Template

theorem fixAll_quiet (entries : List RegistryEntry) (nodes : List Markup.Node) (changed : Bool) :
    fixAll (entries.map (·.quiet)) nodes changed = ((fixAll entries nodes changed).1, false) := by
  induction entries generalizing nodes changed with
  | nil => rfl
  | cons e entries ih =>
    rw [List.map_cons, fixAll, fixAll]
    have hfix : e.quiet.migration.fix = e.migration.fix := rfl
    rw [hfix]
    cases e.migration.fix nodes with
    | error failure => rfl
    | ok result =>
      simp only [ih]
      rfl

theorem treat_quiet (process : WritingProcess) (entries : List RegistryEntry) (root : Path)
    (fs : FileSystem) (file : Path) : treat process (entries.map (·.quiet)) .fix root fs file =
      { treat process entries .fix root fs file with cancels := false } := by
  unfold treat
  cases fs.readText file with
  | error kind => rfl
  | ok source =>
    dsimp only
    cases Markup.Document.parse source with
    | error e => rfl
    | ok d =>
      dsimp only [fix]
      rw [fixAll_quiet]
      generalize fixAll entries d.nodes false = x
      obtain ⟨⟨id, failure⟩ | ⟨nodes, _ | _⟩, cancels⟩ := x
      · rfl
      · rfl
      · dsimp only
        cases fs.writeText file (Markup.Document.mk nodes).render process with
        | mk after failed => cases failed <;> rfl

theorem fateOf_quiet (process : WritingProcess) (entries : List RegistryEntry) :
    fateOf process (entries.map (·.quiet)) = fateOf process entries := by
  have hfix (nodes : List Markup.Node) :
      fixInOrder (entries.map (·.quiet)) nodes = fixInOrder entries nodes := by
    rw [← fixAll_eq_fixInOrder, fixAll_quiet, fixAll_eq_fixInOrder]
  funext fs file
  simp only [fateOf, hfix]

theorem apart_quiet {process : WritingProcess} {entries : List RegistryEntry} :
    Apart process (entries.map (·.quiet)) = Apart process entries := by
  have htouched : touched process (entries.map (·.quiet)) = touched process entries := by
    funext fs file
    simp only [touched, fateOf_quiet]
  funext fs p q
  simp only [Apart, htouched]

end Template

namespace Run

open Template

/-! ## Files in front of an interruption -/

section Files

variable {process : WritingProcess} {entries : List RegistryEntry} {mode : Mode} {root : Path}

/-- One step of a run over files: it ends in front of the file, or treats it and goes on. -/
theorem visitFiles_cons (w : World) (done : Outcome) (file : Path) (files : List Path) :
    (visitFiles process entries mode root done (file :: files)).runIn w =
      match w.cancellation.pass? with
      | none => (.error .cancelled, w)
      | some c =>
        let t := treat process entries mode root w.fs file
        (visitFiles process entries mode root
          (done.append ⟨t.findings, if t.fixed then [file] else []⟩) files).runIn
            { w with fs := t.fs, cancellation := if t.cancels then .cancelled else c } := by
  rw [visitFiles, runIn_bind, runIn_checkpoint_eq]
  cases w.cancellation.pass? with
  | none => rfl
  | some c =>
    simp only [runIn_bind, runIn_get, runIn_modify, cancelIf]
    cases (treat process entries mode root w.fs file).cancels <;> rfl

/-- A run over files that nothing cancels. -/
def whole (process : WritingProcess) (entries : List RegistryEntry) (root : Path) (w : World)
    (done : Outcome) (files : List Path) : Except Failure Outcome × World :=
  (visitFiles process (entries.map (·.quiet)) .fix root done files).runIn
    { w with cancellation := .never }

theorem whole_cons (w : World) (done : Outcome) (file : Path) (files : List Path) :
    whole process entries root w done (file :: files) =
      let t := treat process entries .fix root w.fs file
      whole process entries root { w with fs := t.fs }
        (done.append ⟨t.findings, if t.fixed then [file] else []⟩) files := by
  rw [whole, visitFiles_cons, treat_quiet]
  rfl

/-- A run ends as a whole one would, or in front of a file with what a whole run over the files
before it leaves. -/
theorem visitFiles_interrupted (w : World) (done : Outcome) (files : List Path) :
    let run := (visitFiles process entries .fix root done files).runIn w
    run = ((whole process entries root w done files).1,
      { (whole process entries root w done files).2 with cancellation := run.2.cancellation }) ∨
    ∃ front file back, files = front ++ file :: back ∧
      run = (.error .cancelled,
        { (whole process entries root w done front).2 with cancellation := .cancelled }) ∧
      ((∀ e ∈ entries, e.migration.cancels = false) →
        w.cancellation.passAll? front.length = some .cancelled) := by
  -- on the files still to come; the world and the outcome so far go into both runs
  induction files generalizing w done with
  | nil => exact .inl rfl
  | cons file files ih =>
    dsimp only
    rw [visitFiles_cons]
    cases hpass : w.cancellation.pass? with
    | none =>
      have hcancelled := Cancellation.pass?_eq_none_iff.mp hpass
      refine .inr ⟨[], file, files, rfl, ?_, fun _ => by rw [← hcancelled]; rfl⟩
      rw [← hcancelled]
      rfl
    | some c =>
      dsimp only
      generalize ht : treat process entries .fix root w.fs file = t
      have hwhole (files : List Path) : whole process entries root w done (file :: files) =
          whole process entries root { w with fs := t.fs }
            (done.append ⟨t.findings, if t.fixed then [file] else []⟩) files := by
        rw [whole_cons, ht]
      rcases ih { w with fs := t.fs, cancellation := if t.cancels then .cancelled else c }
        (done.append ⟨t.findings, if t.fixed then [file] else []⟩) with
        hrun | ⟨front, next, back, hfiles, hrun, hcount⟩
      · left
        rw [hwhole]
        exact hrun
      · right
        refine ⟨file :: front, next, back, by rw [hfiles]; rfl, ?_, fun hquiet => ?_⟩
        · rw [hwhole]
          exact hrun
        · have hcancels : t.cancels = false := by
            rw [← ht, ← map_quiet_of_not_cancels hquiet, treat_quiet]
          have hrest := hcount hquiet
          rw [hcancels, if_neg (by simp)] at hrest
          rw [List.length_cons, Cancellation.passAll?, hpass]
          exact hrest

end Files

/-- What an interrupted run leaves: the files in front have met their whole fate, and the file
that it ended at and those behind hold what they held. -/
structure LeftBehind (fate : Path → Fate) (front back : List Path) (before after : FileSystem) :
    Prop where
  rewritten : ∀ p ∈ front, ∀ text, fate p = .rewritten text → after.readText p = .ok text
  kept : ∀ p ∈ front, (fate p).isRewritten = false → after.readBytes p = before.readBytes p
  untouched : ∀ p ∈ back, after.readBytes p = before.readBytes p

theorem leftBehind_whole {process : WritingProcess} {entries : List RegistryEntry} {root : Path}
    {w : World} {front back : List Path}
    (hapart : (front ++ back).Pairwise (Apart process entries w.fs))
    (hroom : ∀ p ∈ front, hasRoom process w.fs p = true) :
    LeftBehind (fateOf process entries w.fs) front back w.fs
      (whole process entries root w .empty front).2.fs := by
  rw [← apart_quiet] at hapart
  obtain ⟨hfront, -, hacross⟩ := List.pairwise_append.mp hapart
  obtain ⟨after, hrun, htreated⟩ := visitFiles_treated (w := { w with cancellation := .never })
    root [] .empty quiet_cancels rfl hfront hroom .nothing
  have hafter : (whole process entries root w .empty front).2.fs = after := by
    rw [whole, hrun]
  rw [hafter, ← fateOf_quiet]
  exact ⟨fun p hp text => htreated.readText hfront hp,
    fun p hp => htreated.readBytes hfront hp (hroom p hp),
    fun p hp => htreated.readBytes_of_apart fun q hq => hacross q hq p hp⟩

/-! ## Runs that are cancelled before they begin -/

/-- A run that changes nothing when it is cancelled before it begins. -/
def Still {α : Type} (run : Run α) : Prop :=
  ∀ w : World, w.cancellation = .cancelled → (run.runIn w).2 = w

namespace Still

variable {α β : Type}

theorem pure (a : α) : Still (Pure.pure a) := fun _ _ => rfl

theorem reading (f : FileSystem → Except Failure α) : Still (Run.reading f) := fun _ _ => rfl

theorem bind {run : Run α} {f : α → Run β} (hrun : Still run) (hf : ∀ a, Still (f a)) :
    Still (run >>= f) := by
  intro w hw
  have hsame := hrun w hw
  rw [runIn_bind]
  generalize run.runIn w = result at hsame
  obtain ⟨result, after⟩ := result
  obtain rfl : after = w := hsame
  cases result with
  | error e => rfl
  | ok a => exact hf a after hw

theorem get_bind {f : World → Run β} (hf : ∀ w, Still (f w)) : Still (get >>= f) :=
  bind (fun _ _ => rfl) hf

theorem checkpoint_bind (f : Unit → Run β) : Still (checkpoint >>= f) := by
  intro w hw
  rw [runIn_bind, runIn_checkpoint_eq, hw]
  rfl

end Still

section Still

variable (s : Setup) (root : Path) (v : Version) (mode : Mode)

theorem still_migrate (a : Area) (files : List Path) : Still (migrate s root a v files mode) := by
  unfold migrate
  split
  · exact .pure _
  · cases files with
    | nil => exact .pure _
    | cons file files => exact .checkpoint_bind _

theorem still_migrateAreas (report : Report) (fixed : List Path)
    (templates : List (Area × List Path)) :
    Still (migrateAreas s root v mode report fixed templates) := by
  induction templates generalizing report fixed with
  | nil => exact .pure _
  | cons place templates ih =>
    exact .bind (.reading _) fun files => .bind (still_migrate s root v mode _ files) fun here =>
      ih _ _

theorem still_lintDirs (php : String) (report : Report) (dirs : List Path) :
    Still (lintDirs s.linter root php report dirs) := by
  cases dirs with
  | nil => exact .pure _
  | cons dir dirs => exact .checkpoint_bind _

theorem still_lintSources (c : Constraint) (dirs : List Path) (report : Report) :
    Still (lintSources s root c dirs report) := by
  unfold lintSources
  split
  · exact .pure _
  · refine .get_bind fun w => ?_
    split
    · exact still_lintDirs s root _ report dirs
    · exact .pure _

theorem still_examine (c : Constraint) (lint : Bool) (sources : List Path)
    (templates : List (Area × List Path)) (report : Report) :
    Still (examine s root c v lint sources templates mode report) := by
  have hmigrate (report : Report) : Still (do
      let migrated ← migrateAreas s root v mode report [] templates
      return (⟨migrated.1.findings, migrated.2⟩ : Outcome)) :=
    .bind (still_migrateAreas s root v mode report [] templates) fun _ => .pure _
  unfold examine
  split
  · exact .bind (still_lintSources s root c sources report) hmigrate
  · exact .bind (.pure _) hmigrate

theorem still_validateScope (scope : Scope) : Still (validateScope s scope mode) :=
  still_examine s scope.root scope.platformVersion mode _ _ _ _ _

theorem still_validateExtension (e : Extension) : Still (validateExtension s e mode) :=
  .checkpoint_bind _

end Still

/-- The run of migrations over files that nothing cancels. -/
def uncancelled (s : Setup) (root : Path) (a : Area) (v : Version) (w : World)
    (files : List Path) : Except Failure Outcome × World :=
  (migrate s.quiet root a v files .fix).runIn { w with cancellation := .never }

theorem uncancelled_eq_whole {s : Setup} {a : Area} {v : Version}
    (h : s.registry.applicable a v ≠ []) (root : Path) (w : World) (files : List Path) :
    uncancelled s root a v w files =
      whole s.process (s.registry.applicable a v) root w .empty files := by
  have hquiet : s.quiet.registry.applicable a v ≠ [] := by
    rwa [Setup.applicable_quiet, ne_eq, List.map_eq_nil_iff]
  rw [uncancelled, migrate_of_applicable hquiet, Setup.applicable_quiet]
  rfl

end Run

end ExtensionAudit
