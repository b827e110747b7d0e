import ExtensionAudit.Migration.Basic
import ExtensionAudit.Proofs.Markup.Rereading
/-
  Renames as edits of tags. What a rename does to an element is settled by its
  start tag, and renames in order are one edit, so what a file is read as after
  they have been written is known from the start tags alone.

  Main statements: `inOrder_rereads` and `converges_of_keptApart`, the file is read
  again and no rename finds anything, if the parts of its start tags stay kept apart
  and none is left to rename.
-/

namespace ExtensionAudit

open Markup

namespace Rename

/-- Whether the rename applies to elements with this start tag. -/
def touches : Rename → StartTag → Bool
  | .element old _, t => t.tag == old
  | .attribute old _, t => t.attributes.any (·.isNamed old)

theorem concerns_eq_touches (r : Rename) (e : Element) : r.concerns e = r.touches e.toStartTag := by
  cases r <;> rfl

/-- The pieces of a start tag after the rename of an attribute. -/
def renamePieces (old new : Text) (as : List Attribute) : List Attribute :=
  (if as.any (·.isNamed new) then as
    else Element.mapFirst old (fun a => { a with name := new }) as).filter (! ·.isNamed old)

def edit : Rename → TagEdit
  | .element old new =>
    { start := fun t => if t.tag == old then { t with tag := new } else t
      endName := fun t name => if t.tag == old then new else name }
  | .attribute old new =>
    { start := fun t =>
        if t.attributes.any (·.isNamed old) then
          { t with attributes := renamePieces old new t.attributes }
        else t
      endName := fun _ name => name }

theorem apply_edit (r : Rename) :
    r.edit.apply = fun e => if r.concerns e then r.apply e else e := by
  funext e
  obtain ⟨t, line, c⟩ := e
  match r with
  | .element old new =>
    by_cases h : t.tag = old
    · cases c <;> simp [edit, TagEdit.apply, TagEdit.closing, concerns, apply, Element.rename, h]
    · cases c <;> simp [edit, TagEdit.apply, TagEdit.closing, concerns, h]
  | .attribute old new =>
    -- end tags are left alone
    have hclosing : (edit (.attribute old new)).closing t c = c := by cases c <;> rfl
    simp only [TagEdit.apply, hclosing]
    by_cases hold : t.attributes.any (·.isNamed old) = true
    · by_cases hnew : t.attributes.any (·.isNamed new) = true
      · simp only [edit, concerns, apply, Element.hasAttribute, renamePieces, hold, hnew, if_true]
        rfl
      · simp only [edit, concerns, apply, Element.hasAttribute, renamePieces, hold, hnew, if_true]
        rfl
    · simp only [edit, concerns, Element.hasAttribute, hold]
      rfl

theorem fix_eq_edit (r : Rename) (nodes : List Node) :
    (r.fix nodes).1 = Node.mapElementsAll r.edit.apply nodes := by
  rw [fix, apply_edit]

/-- A rename is done with a template exactly when it applies to none of its start tags. -/
theorem settled_iff {r : Rename} {d : Document} :
    (r.check d.nodes = [] ∧ r.fix d.nodes = (d.nodes, false)) ↔
      ∀ t ∈ d.startTags, r.touches t = false := by
  have hchanged : (r.fix d.nodes).2 = false ↔ ∀ t ∈ d.startTags, r.touches t = false := by
    simp [fix, Document.startTags, Document.elements, concerns_eq_touches]
  constructor
  · rintro ⟨-, hfix⟩
    exact hchanged.mp (by rw [hfix])
  · intro h
    have hunchanged := hchanged.mpr h
    refine ⟨?_, Prod.ext (fix_unchanged hunchanged) hunchanged⟩
    simpa [hunchanged] using fix_changed_iff r d.nodes

/-! ## Renames in order -/

/-- The tree after the renames, one after another. -/
def inOrder : List Rename → List Node → List Node
  | [], nodes => nodes
  | r :: rs, nodes => inOrder rs (r.fix nodes).1

def editAll : List Rename → TagEdit
  | [] => .nothing
  | r :: rs => r.edit.andThen (editAll rs)

theorem inOrder_eq_editAll (rs : List Rename) (nodes : List Node) :
    inOrder rs nodes = Node.mapElementsAll (editAll rs).apply nodes := by
  induction rs generalizing nodes with
  | nil => rw [inOrder, editAll, TagEdit.apply_nothing, Node.mapElementsAll_id]
  | cons r rs ih =>
    rw [inOrder, ih, fix_eq_edit, Node.mapElementsAll_comp, editAll, TagEdit.apply_andThen]

theorem editAll_lawful {rs : List Rename} (h : ∀ r ∈ rs, r.edit.Lawful) :
    (editAll rs).Lawful := by
  induction rs with
  | nil => exact .nothing
  | cons r rs ih =>
    exact (h r List.mem_cons_self).andThen (ih fun s hs => h s (List.mem_cons_of_mem r hs))

/-- Whether one pass over a template is enough: what it writes is read again, and then none of
the renames finds or changes anything and it is written as before. -/
def Converges (rs : List Rename) (d : Document) : Prop :=
  ∃ again, Document.parse (Document.mk (inOrder rs d.nodes)).render = .ok again ∧
    again.render = (Document.mk (inOrder rs d.nodes)).render ∧
    ∀ r ∈ rs, r.check again.nodes = [] ∧ r.fix again.nodes = (again.nodes, false)

theorem converges_iff_startTags {rs : List Rename} {d : Document} :
    Converges rs d ↔
      ∃ again, Document.parse (Document.mk (inOrder rs d.nodes)).render = .ok again ∧
        ∀ r ∈ rs, ∀ t ∈ again.startTags, r.touches t = false := by
  constructor
  · rintro ⟨again, hagain, -, hdone⟩
    exact ⟨again, hagain, fun r hr => settled_iff.mp (hdone r hr)⟩
  · rintro ⟨again, hagain, hdone⟩
    refine ⟨again, hagain, ?_, fun r hr => settled_iff.mpr (hdone r hr)⟩
    rw [Document.render, Document.toText_of_ofText hagain, String.ofList_toList]

/-- What lawful renames wrote is read again with the start tags that they wrote, if the parts of
each are kept apart. -/
theorem inOrder_rereads {rs : List Rename} (hrs : (editAll rs).Lawful) {source : String}
    {d : Document} (h : Document.parse source = .ok d)
    (hapart : ∀ t ∈ d.startTags, ((editAll rs).start t).keptApart = true) :
    ∃ again, Document.parse (Document.mk (inOrder rs d.nodes)).render = .ok again ∧
      again.startTags = (Document.mk (inOrder rs d.nodes)).startTags ∧
      again.startTags = d.startTags.map (editAll rs).start := by
  have hfixed : Document.mk (inOrder rs d.nodes) = d.mapElements (editAll rs).apply := by
    rw [inOrder_eq_editAll, Document.mapElements]
  obtain ⟨again, hagain, htags⟩ := Document.rereads_of_edit hrs h hapart
  rw [hfixed]
  refine ⟨again, ?_, htags, htags.trans (Document.startTags_mapElements _ d)⟩
  rw [Document.parse, Document.render, String.toList_ofList, hagain]

/-- Then one pass is enough, if no start tag is left to rename. -/
theorem converges_of_keptApart {rs : List Rename} (hrs : (editAll rs).Lawful) {source : String}
    {d : Document} (h : Document.parse source = .ok d)
    (hapart : ∀ t ∈ d.startTags, ((editAll rs).start t).keptApart = true)
    (hdone : ∀ r ∈ rs, ∀ t, r.touches ((editAll rs).start t) = false) : Converges rs d := by
  obtain ⟨again, hagain, -, htags⟩ := inOrder_rereads hrs h hapart
  refine converges_iff_startTags.mpr ⟨again, hagain, fun r hr t ht => ?_⟩
  rw [htags] at ht
  obtain ⟨u, -, rfl⟩ := List.mem_map.mp ht
  exact hdone r hr u

end Rename

end ExtensionAudit
