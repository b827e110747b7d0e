import ExtensionAudit.Migration.Registry
import ExtensionAudit.Proofs.Migration.Edits
/-
  Renames of elements. A table of renames in order is done after one pass over
  the written text: end tags may belong to other elements than before, and no
  start tag is read differently for it.

  Main statement: `elements_converge`.
-/

namespace ExtensionAudit

open Markup

namespace Rename

/-- Element renames that can follow one another: new names are names of elements, no name is
that of a raw text element, and no new name is renamed by the same or an earlier entry. -/
structure IsElementTable (table : List (Text × Text)) : Prop where
  new_name : ∀ p ∈ table, IsTagName p.2
  not_raw : ∀ p ∈ table, isRawText p.1 = false ∧ isRawText p.2 = false
  new_ne_old : ∀ p ∈ table, p.2 ≠ p.1
  new_ne_earlier : table.Pairwise fun earlier p => p.2 ≠ earlier.1

def ofTable (table : List (Text × Text)) : List Rename := table.map fun p => .element p.1 p.2

theorem element_lawful {old new : Text} (hname : IsTagName new) (hold : isRawText old = false)
    (hnew : isRawText new = false) : (element old new).edit.Lawful := by
  have hraw (t : StartTag) (ht : isRawText t.tag = true) : t.tag ≠ old := by
    rintro rfl
    rw [hold] at ht
    cases ht
  constructor
  · intro t sc ht
    simp only [edit]
    split
    · exact ⟨hname, ht.attributes, ht.tail⟩
    · exact ht
  · intro t ht
    simp [edit, hraw t ht]
  · intro t name ht
    simp [edit, hraw t ht]
  · intro t ht
    simp only [edit]
    split
    · exact hnew
    · exact ht
  · intro t name h
    simp only [edit]
    split
    · exact hname
    · exact h

theorem element_keptApart (old new : Text) (t : StartTag) :
    ((element old new).edit.start t).keptApart = t.keptApart := by
  simp only [edit]
  split <;> rfl

theorem ofTable_keptApart (table : List (Text × Text)) (t : StartTag) :
    ((editAll (ofTable table)).start t).keptApart = t.keptApart := by
  induction table generalizing t with
  | nil => rfl
  | cons p table ih => exact (ih _).trans (element_keptApart p.1 p.2 t)

theorem ofTable_tag_ne {table : List (Text × Text)} {name : Text} (h : ∀ p ∈ table, p.2 ≠ name)
    {t : StartTag} (ht : t.tag ≠ name) : ((editAll (ofTable table)).start t).tag ≠ name := by
  induction table generalizing t with
  | nil => exact ht
  | cons p table ih =>
    refine ih (fun q hq => h q (List.mem_cons_of_mem p hq)) ?_
    simp only [edit]
    split
    · exact h p List.mem_cons_self
    · exact ht

theorem ofTable_done {table : List (Text × Text)} (hself : ∀ p ∈ table, p.2 ≠ p.1)
    (hearlier : table.Pairwise fun earlier p => p.2 ≠ earlier.1) :
    ∀ r ∈ ofTable table, ∀ t, r.touches ((editAll (ofTable table)).start t) = false := by
  induction table with
  | nil => simp [ofTable]
  | cons p table ih =>
    obtain ⟨hp, hrest⟩ := List.pairwise_cons.mp hearlier
    intro r hr t
    rcases List.mem_cons.mp hr with rfl | hr
    · -- gone after its own rename, and none of the later ones gives it back
      have htag : ((editAll (ofTable (p :: table))).start t).tag ≠ p.1 := by
        refine ofTable_tag_ne hp ?_
        simp only [edit]
        split
        · exact hself p List.mem_cons_self
        · rename_i hne
          simpa using hne
      simpa [touches] using htag
    · exact ih (fun q hq => hself q (List.mem_cons_of_mem p hq)) hrest r hr _

/-- One pass of a table of element renames is enough, however elements are nested and closed. -/
theorem elements_converge {table : List (Text × Text)} (htable : IsElementTable table)
    {source : String} {d : Document} (h : Document.parse source = .ok d) :
    Converges (ofTable table) d := by
  have hlawful : (editAll (ofTable table)).Lawful := by
    refine editAll_lawful fun r hr => ?_
    obtain ⟨p, hp, rfl⟩ := List.mem_map.mp hr
    obtain ⟨hold, hnew⟩ := htable.not_raw p hp
    exact element_lawful (htable.new_name p hp) hold hnew
  refine converges_of_keptApart hlawful h (fun t ht => ?_)
    (ofTable_done htable.new_ne_old htable.new_ne_earlier)
  rw [ofTable_keptApart]
  exact (Document.keptApart_of_ofText h t ht).2

/-- The components of the administration that have a successor, with it. -/
def componentTable : List (Text × Text) :=
  Registry.componentRenames.map fun p => (p.1.toList, p.2.toList)

theorem ofTable_componentTable :
    (Registry.builtinRenames.filter fun e => e.1 = .administration).map (·.2.2) =
      ofTable componentTable := by decide +kernel

theorem componentTable_isElementTable : IsElementTable componentTable := by
  constructor <;> decide +kernel

/-- The components, where spellings are mixed and an end tag has a new name already. -/
theorem elements_converge_components :
    ∃ d, Document.parse "<SW-loader><sw-loader a>x</sw-loader></mt-loader><sw-colorpicker/>" =
        .ok d ∧ Converges (ofTable componentTable) d := by
  obtain ⟨d, hd, -⟩ := Document.exists_of_any
    "<SW-loader><sw-loader a>x</sw-loader></mt-loader><sw-colorpicker/>" (fun _ => true)
    (by decide +kernel)
  exact ⟨d, hd, elements_converge componentTable_isElementTable hd⟩

end Rename

end ExtensionAudit
