import ExtensionAudit.Engine.Templates
import ExtensionAudit.Proofs.Migration.AttributeRenames
/-
  Checking and fixing. What renames find is looked for in the tree as it is, while
  each is applied to what those before it have left; both agree all the same on
  whether there is anything to do. A name that a rename takes away stays away as
  long as no later rename gives it back, so one pass over a tree leaves nothing to
  be found.

  Main statements: `changesInOrder_iff`, `editAll_done`, `inOrder_done`, and
  `check_agrees_with_fix`.
-/

namespace ExtensionAudit

open Markup

namespace Rename

/-! ## Changes -/

/-- Whether one of the renames, one after another, reports a change. -/
def changesInOrder : List Rename → List Node → Bool
  | [], _ => false
  | r :: rs, nodes => (r.fix nodes).2 || changesInOrder rs (r.fix nodes).1

/-- A change is reported exactly when a rename finds something in the tree as it was. -/
theorem changesInOrder_iff (rs : List Rename) (nodes : List Node) :
    changesInOrder rs nodes = true ↔ ∃ r ∈ rs, r.check nodes ≠ [] := by
  induction rs with
  | nil => simp [changesInOrder]
  | cons r rs ih =>
    simp only [changesInOrder, List.mem_cons, exists_eq_or_imp]
    -- as long as nothing has changed, the next rename sees the tree as it was
    cases hfixed : (r.fix nodes).2 with
    | true => simp [(fix_changed_iff r nodes).mp hfixed]
    | false =>
      have hcheck : ¬r.check nodes ≠ [] := by simp [← fix_changed_iff, hfixed]
      simp only [fix_unchanged hfixed, Bool.false_or, ih, hcheck, false_or]

theorem inOrder_of_unchanged {rs : List Rename} {nodes : List Node}
    (h : changesInOrder rs nodes = false) : inOrder rs nodes = nodes := by
  induction rs with
  | nil => rfl
  | cons r rs ih =>
    obtain ⟨hfixed, hrest⟩ := Bool.or_eq_false_iff.mp h
    rw [fix_unchanged hfixed] at hrest
    rw [inOrder, fix_unchanged hfixed, ih hrest]

/-- The engine applies registered renames in the order of their entries, and reports a change when
one of them does. -/
theorem fixAll_eq {entries : List RegistryEntry} {rs : List Rename}
    (h : entries.map (·.migration) = rs.map migration) (nodes : List Node) (changed : Bool) :
    Template.fixAll entries nodes changed =
      (.ok (inOrder rs nodes, changed || changesInOrder rs nodes), false) := by
  induction entries generalizing rs nodes changed with
  | nil =>
    obtain rfl : rs = [] := by simpa using h.symm
    simp [Template.fixAll, inOrder, changesInOrder]
  | cons e entries ih =>
    cases rs with
    | nil => simp at h
    | cons r rs =>
      obtain ⟨he, hrest⟩ := List.cons_eq_cons.mp h
      simp [Template.fixAll, he, migration, ih hrest, inOrder, changesInOrder, Bool.or_assoc]

/-! ## Names that stay away -/

/-- Whether a rename gives back the name that another one of the same kind takes away. -/
def Restores : Rename → Rename → Prop
  | .element _ new, .element old _ => new = old
  | .attribute _ new, .attribute old _ => new = old
  | _, _ => False

instance : DecidableRel Restores := fun r s => by
  cases r <;> cases s <;> unfold Restores <;> infer_instance

theorem touches_edit_self {r : Rename} (h : r.old ≠ r.new) (t : StartTag) :
    r.touches (r.edit.start t) = false := by
  match r with
  | .element old new =>
    have hne : new ≠ old := Ne.symm h
    simp only [touches, edit]
    split
    · simpa using hne
    · rename_i hother
      simpa using hother
  | .attribute old new => exact attribute_done t

theorem isNamed_renamePieces {old new name : Text} (hnew : new ≠ name) {as : List Attribute}
    (h : as.any (·.isNamed name) = false) : (renamePieces old new as).any (·.isNamed name) = false := by
  simp only [List.any_eq_false, Bool.not_eq_true] at h ⊢
  intro a ha
  have ha := (List.mem_filter.mp ha).1
  split at ha
  · exact h a ha
  · rcases mem_mapFirst ha with ha | ⟨b, -, rfl⟩
    · exact h a ha
    · simpa [Attribute.isNamed] using hnew

theorem touches_edit_of_not_restores {r s : Rename} (h : ¬r.Restores s) {t : StartTag}
    (ht : s.touches t = false) : s.touches (r.edit.start t) = false := by
  match r, s with
  | .element old new, .element name _ =>
    have hne : new ≠ name := h
    simp only [touches, edit] at ht ⊢
    split
    · simpa using hne
    · exact ht
  | .element old new, .attribute name _ =>
    simp only [touches, edit] at ht ⊢
    split <;> exact ht
  | .attribute old new, .element name _ =>
    simp only [touches, edit] at ht ⊢
    split <;> exact ht
  | .attribute old new, .attribute name _ =>
    simp only [touches, edit] at ht ⊢
    split
    · exact isNamed_renamePieces h ht
    · exact ht

theorem touches_editAll_of_not_restores {rs : List Rename} {s : Rename}
    (h : ∀ r ∈ rs, ¬r.Restores s) {t : StartTag} (ht : s.touches t = false) :
    s.touches ((editAll rs).start t) = false := by
  induction rs generalizing t with
  | nil => exact ht
  | cons r rs ih =>
    obtain ⟨hr, hrs⟩ := List.forall_mem_cons.mp h
    exact ih hrs (touches_edit_of_not_restores hr ht)

/-- Renames leave no work behind, if none gives back a name that an earlier one takes away. -/
theorem editAll_done {rs : List Rename} (hself : ∀ r ∈ rs, r.old ≠ r.new)
    (hearlier : rs.Pairwise fun earlier r => ¬r.Restores earlier) :
    ∀ s ∈ rs, ∀ t, s.touches ((editAll rs).start t) = false := by
  induction rs with
  | nil => exact List.forall_mem_nil _
  | cons r rs ih =>
    obtain ⟨hr, hrs⟩ := List.forall_mem_cons.mp hself
    obtain ⟨hlater, hrest⟩ := List.pairwise_cons.mp hearlier
    refine List.forall_mem_cons.mpr ⟨fun t => ?_, fun s hs t => ih hrs hrest s hs _⟩
    -- gone after its own rename, and none of the later ones gives it back
    exact touches_editAll_of_not_restores hlater (touches_edit_self hr t)

/-- After one pass no rename finds anything, and a second pass changes nothing. -/
theorem inOrder_done {rs : List Rename} (hself : ∀ r ∈ rs, r.old ≠ r.new)
    (hearlier : rs.Pairwise fun earlier r => ¬r.Restores earlier) (nodes : List Node) :
    (∀ r ∈ rs, r.check (inOrder rs nodes) = []) ∧
      inOrder rs (inOrder rs nodes) = inOrder rs nodes ∧
      changesInOrder rs (inOrder rs nodes) = false := by
  have htags : (Document.mk (inOrder rs nodes)).startTags =
      (Document.mk nodes).startTags.map (editAll rs).start := by
    rw [inOrder_eq_editAll]
    exact Document.startTags_mapElements _ ⟨nodes⟩
  have hcheck : ∀ r ∈ rs, r.check (inOrder rs nodes) = [] := by
    intro r hr
    refine (settled_iff (d := ⟨inOrder rs nodes⟩).mpr fun t ht => ?_).1
    rw [htags] at ht
    obtain ⟨u, -, rfl⟩ := List.mem_map.mp ht
    exact editAll_done hself hearlier r hr u
  have hchanges : changesInOrder rs (inOrder rs nodes) = false := by
    rw [← Bool.not_eq_true, changesInOrder_iff]
    rintro ⟨r, hr, hfound⟩
    exact hfound (hcheck r hr)
  exact ⟨hcheck, inOrder_of_unchanged hchanges, hchanges⟩

end Rename

/-! ## Files -/

namespace Template

/-- A file that is written: it counts as fixed, or the failure is reported. -/
def Treatment.ofWrite (shown : String) : FileSystem × Option Failure → Treatment
  | (fs, none) => ⟨[], fs, true, false⟩
  | (fs, some failure) => .reported fs [.error shown "fixer.apply" failure.message] false

variable {process : WritingProcess} {entries : List RegistryEntry} {root : Path} {fs : FileSystem}
  {file : Path} {source : String} {d : Document}

theorem treat_check (hread : fs.readText file = .ok source)
    (hparse : Document.parse source = .ok d) :
    (treat process entries .check root fs file).findings =
      check entries (Path.relativeTo root file) d.nodes := by
  simp [treat, hread, hparse, Treatment.reported]

theorem check_eq_nil_iff {rs : List Rename}
    (h : entries.map (·.migration) = rs.map Rename.migration) {path : String} {nodes : List Node} :
    check entries path nodes = [] ↔ ∀ r ∈ rs, r.check nodes = [] := by
  have hmigrations : (∀ e ∈ entries, e.migration.check nodes = []) ↔
      ∀ m ∈ entries.map (·.migration), m.check nodes = [] := by
    rw [List.forall_mem_map]
  rw [check, List.flatMap_eq_nil_iff]
  simp only [List.map_eq_nil_iff]
  rw [hmigrations, h, List.forall_mem_map]
  rfl

theorem treat_fix {rs : List Rename} (h : entries.map (·.migration) = rs.map Rename.migration)
    (hread : fs.readText file = .ok source) (hparse : Document.parse source = .ok d) :
    treat process entries .fix root fs file =
      if Rename.changesInOrder rs d.nodes then
        .ofWrite (Path.relativeTo root file)
          (fs.writeText file (Document.mk (Rename.inOrder rs d.nodes)).render process)
      else .reported fs [] false := by
  simp only [treat, hread, hparse, fix, Rename.fixAll_eq h, Bool.false_or]
  cases Rename.changesInOrder rs d.nodes with
  | false => rfl
  | true =>
    simp only [if_true]
    cases fs.writeText file (Document.mk (Rename.inOrder rs d.nodes)).render process with
    | mk after failure => cases failure <;> rfl

end Template

namespace Rename

/-- Checking and fixing agree. Over every tree, some rename finds something exactly when renaming
in order reports a change, and otherwise the tree stays as it is. If each rename gives another
name than it takes away, and none gives back what an earlier one of its kind has taken away, then
one pass leaves nothing to find and a second one changes nothing. So a file that can be read and
parsed is written exactly when checking it finds something. -/
theorem check_agrees_with_fix {entries : List RegistryEntry} {rs : List Rename}
    (hentries : entries.map (·.migration) = rs.map migration) :
    (∀ nodes, ∃ nodes' changed,
      Template.fixAll entries nodes false = (.ok (nodes', changed), false) ∧
      (changed = true ↔ ∃ r ∈ rs, r.check nodes ≠ []) ∧
      (changed = false → nodes' = nodes) ∧
      ((∀ r ∈ rs, r.old ≠ r.new) → (rs.Pairwise fun earlier r => ¬r.Restores earlier) →
        (∀ r ∈ rs, r.check nodes' = []) ∧
        Template.fixAll entries nodes' false = (.ok (nodes', false), false))) ∧
    ∀ (process : WritingProcess) (root : Path) (fs : FileSystem) (file : Path) (source : String)
      (d : Document), fs.readText file = .ok source → Document.parse source = .ok d →
      ((Template.treat process entries .check root fs file).findings = [] →
        Template.treat process entries .fix root fs file = .reported fs [] false) ∧
      ((Template.treat process entries .check root fs file).findings ≠ [] →
        Template.treat process entries .fix root fs file =
          .ofWrite (Path.relativeTo root file)
            (fs.writeText file (Document.mk (inOrder rs d.nodes)).render process)) := by
  refine ⟨fun nodes => ?tree, fun process root fs file source d hread hparse => ?file⟩
  case tree =>
    refine ⟨inOrder rs nodes, changesInOrder rs nodes, ?_, changesInOrder_iff rs nodes,
      inOrder_of_unchanged, fun hself hearlier => ?_⟩
    · rw [fixAll_eq hentries, Bool.false_or]
    · obtain ⟨hcheck, hsame, hunchanged⟩ := inOrder_done hself hearlier nodes
      exact ⟨hcheck, by rw [fixAll_eq hentries, hsame, hunchanged, Bool.false_or]⟩
  case file =>
    -- nothing is found exactly where none of the renames would change anything
    have hfinds : (Template.treat process entries .check root fs file).findings = [] ↔
        changesInOrder rs d.nodes = false := by
      rw [Template.treat_check hread hparse, Template.check_eq_nil_iff hentries,
        ← Bool.not_eq_true, changesInOrder_iff]
      simp
    rw [Template.treat_fix hentries hread hparse]
    refine ⟨fun hnone => ?_, fun hsome => ?_⟩
    · rw [hfinds.mp hnone, if_neg Bool.false_ne_true]
    · have hchanges : changesInOrder rs d.nodes = true :=
        Bool.ne_false_iff.mp fun hno => hsome (hfinds.mpr hno)
      rw [hchanges, if_pos rfl]

/-- Renames of both kinds, of which the last goes on from the first. -/
def chain : List Rename :=
  [.attribute "a".toList "b".toList, .element "a".toList "b".toList,
    .attribute "b".toList "c".toList]

/-- A template with an attribute written twice, beside one that has its new name already and one
that is a piece of the template language. -/
def chainTemplate : String := "<a a=1 b a \x7b\x7b a \x7d\x7d><a></b></a>"

/-- A file system with that template alone. -/
def chainFiles : FileSystem where
  entries := [(["t.twig".toList], .file chainTemplate.toUTF8 false)]
  workingDirectory := []

/-- The chain over this template: the checks find something, the pass leaves nothing for a second
one, and the file is written. -/
theorem check_agrees_with_fix_chain :
    let entries := chain.map fun r => RegistryEntry.mk .storefront ⟨[], ""⟩ r.migration
    ∃ d, Document.parse chainTemplate = .ok d ∧
      (∃ nodes', Template.fixAll entries d.nodes false = (.ok (nodes', true), false) ∧
        (∀ r ∈ chain, r.check nodes' = []) ∧
        Template.fixAll entries nodes' false = (.ok (nodes', false), false)) ∧
      Template.treat (.faultless 1) entries .fix (.ofString "/") chainFiles (.ofString "/t.twig") =
        .ofWrite (Path.relativeTo (.ofString "/") (.ofString "/t.twig"))
          (chainFiles.writeText (.ofString "/t.twig")
            (Document.mk (inOrder chain d.nodes)).render (.faultless 1)) := by
  intro entries
  have hentries : entries.map (·.migration) = chain.map migration := by simp [entries]
  obtain ⟨htrees, hfiles⟩ := check_agrees_with_fix hentries
  obtain ⟨d, hd, hfinds⟩ := Document.exists_of_any chainTemplate
    (fun d => chain.any fun r => !(r.check d.nodes).isEmpty) (by decide +kernel)
  have hfinds : ∃ r ∈ chain, r.check d.nodes ≠ [] := by simpa using hfinds
  refine ⟨d, hd, ?_, ?_⟩
  · obtain ⟨nodes', changed, hfix, hchanged, -, hdone⟩ := htrees d.nodes
    rw [hchanged.mpr hfinds] at hfix
    exact ⟨nodes', hfix, hdone (by decide) (by decide)⟩
  · obtain ⟨-, hwritten⟩ := hfiles (.faultless 1) (.ofString "/") chainFiles (.ofString "/t.twig")
      chainTemplate d (by rfl) hd
    refine hwritten fun hnone => ?_
    rw [Template.treat_check (by rfl) hd, Template.check_eq_nil_iff hentries] at hnone
    obtain ⟨r, hr, hfound⟩ := hfinds
    exact hfound (hnone r hr)

end Rename

end ExtensionAudit
