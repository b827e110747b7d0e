import ExtensionAudit.Proofs.Markup.Rebuilding
import ExtensionAudit.Proofs.Migration.ElementRenames
/-
  The structure of a template under the rename of an element. End tags find their
  elements ignoring case and the rename compares exactly, so another spelling of
  the old name stays, and an end tag follows the element that it closed. If the
  source has no tag of the new name, nothing else can be closed by it.

  Main statement: `element_keeps_structure`.
-/

namespace ExtensionAudit

open Markup

namespace Text

/-- Whether a text occurs in another in some spelling. -/
def OccursIgnoringCase (part s : Text) : Prop := part.map Char.toLower <:+: s.map Char.toLower

theorem sameIgnoringCase_comm (s t : Text) : sameIgnoringCase s t = sameIgnoringCase t s := by
  simp [sameIgnoringCase, Bool.beq_comm]

theorem occursIgnoringCase_of_isInfix {front part name s : Text}
    (hname : sameIgnoringCase part name = true) (h : front ++ part <:+: s) :
    OccursIgnoringCase (front ++ name) s := by
  have hmap : part.map Char.toLower = name.map Char.toLower := by
    simpa [sameIgnoringCase] using hname
  have hlower := h.map Char.toLower
  rwa [List.map_append, hmap, ← List.map_append] at hlower

end Text

namespace Markup

theorem lineBreaks_name {name : Text} (h : ∀ c ∈ name, isNameChar c = true) :
    Text.lineBreaks name = 0 := by
  refine List.count_eq_zero.mpr fun hmem => ?_
  exact absurd (h _ hmem) (by decide)

theorem isInfix_of_mem_tokens {s : Text} {ts : List Token} (h : tokens s = .ok ts) {t : Token}
    (ht : t ∈ ts) : t.render <:+: s := by
  obtain ⟨us, vs, rfl⟩ := List.append_of_mem ht
  rw [← tokens_render h]
  exact ⟨us.flatMap Token.render, vs.flatMap Token.render, by simp⟩

theorem Token.isInfix_of_start? {t : Token} {start : StartTag} (h : t.start? = some start) :
    ['<'] ++ start.tag <:+: t.render := by
  have hstart : ['<'] ++ start.tag <:+: start.render :=
    ⟨[], start.attributes.flatMap Attribute.render ++ start.tail, by simp [StartTag.render]⟩
  cases t with
  | startTag start' sc =>
    cases h
    exact hstart
  | rawElement start' content name trailing =>
    cases h
    exact hstart.trans ⟨[], content ++ (Closing.explicit name trailing).render, by simp [render]⟩
  | _ => cases h

theorem Token.isInfix_of_endName? {t : Token} {name : Text} (h : t.endName? = some name) :
    ['<', '/'] ++ name <:+: t.render := by
  cases t with
  | rawElement start content name' trailing =>
    cases h
    exact ⟨start.render ++ content, trailing ++ ['>'], by simp [render, Closing.render]⟩
  | endTag name' trailing =>
    cases h
    exact ⟨[], trailing ++ ['>'], by simp [render, Closing.render]⟩
  | _ => cases h

theorem Token.Formed.endName {t : Token} (h : t.Formed) {name : Text}
    (hn : t.endName? = some name) : ∀ c ∈ name, isNameChar c = true := by
  cases h with
  | startTag => cases hn
  | rawElement _ _ _ _ _ hname _ =>
    cases hn
    exact hname
  | endTag hname _ =>
    cases hn
    exact hname.isNameChar

theorem startTags_unspelled {s name : Text} {ts : List Token} (h : tokens s = .ok ts)
    (hfree : ¬Text.OccursIgnoringCase ('<' :: name) s) :
    ∀ t ∈ ts.filterMap Token.start?, Text.sameIgnoringCase t.tag name = false := by
  intro t ht
  obtain ⟨u, hu, hut⟩ := List.mem_filterMap.mp ht
  rw [← Bool.not_eq_true]
  intro hsame
  exact hfree (Text.occursIgnoringCase_of_isInfix hsame
    ((Token.isInfix_of_start? hut).trans (isInfix_of_mem_tokens h hu)))

theorem endNames_unspelled {s name : Text} {ts : List Token} (h : tokens s = .ok ts)
    (hfree : ¬Text.OccursIgnoringCase ('<' :: '/' :: name) s) :
    ∀ n ∈ ts.filterMap Token.endName?,
      (∀ c ∈ n, isNameChar c = true) ∧ Text.sameIgnoringCase n name = false := by
  intro n hn
  obtain ⟨u, hu, hun⟩ := List.mem_filterMap.mp hn
  constructor
  · rcases (tokens_eq_ok_iff.mp h).2.formed u hu with ⟨content, rfl⟩ | hform
    · cases hun
    · exact hform.endName hun
  · rw [← Bool.not_eq_true]
    intro hsame
    exact hfree (Text.occursIgnoringCase_of_isInfix hsame
      ((Token.isInfix_of_endName? hun).trans (isInfix_of_mem_tokens h hu)))

/-- Names hold no line break, so the pieces and the end of a start tag have them all. -/
theorem StartTag.lineBreaks_render (t : StartTag) {name : Text} (hname : IsTagName name) :
    Text.lineBreaks (StartTag.render { t with tag := name }) =
      Text.lineBreaks (t.attributes.flatMap Attribute.render ++ t.tail) := by
  have hsplit : StartTag.render { t with tag := name } =
      ['<'] ++ (name ++ (t.attributes.flatMap Attribute.render ++ t.tail)) := by
    simp [StartTag.render]
  rw [hsplit, Text.lineBreaks_append, Text.lineBreaks_append, lineBreaks_name hname.isNameChar,
    Nat.zero_add]
  exact Nat.zero_add _

end Markup

namespace Rename

/-- The rename of an element, as an edit, is followed by end tags where nothing has the new
name. -/
theorem element_followed {old new : Text} (hold : IsTagName old) (hnew : IsTagName new)
    (hvoid : isVoid new = isVoid old) :
    (element old new).edit.Followed (fun t => Text.sameIgnoringCase t.tag new = false)
      (fun name => (∀ c ∈ name, isNameChar c = true) ∧
        Text.sameIgnoringCase name new = false) where
  start_lines t _ := by
    simp only [edit]
    split
    · rename_i htag
      -- neither name holds a line break, and the rest of the tag is the same
      have heq : t = { t with tag := old } := by rw [← eq_of_beq htag]
      rw [t.lineBreaks_render hnew, heq, t.lineBreaks_render hold]
    · rfl
  end_lines t name _ hname := by
    simp only [edit]
    split
    · rw [lineBreaks_name hnew.isNameChar, lineBreaks_name hname.1]
    · rfl
  void t _ := by
    simp only [edit]
    split
    · rename_i htag
      rw [hvoid, eq_of_beq htag]
    · rfl
  unmatched t name _ hname h := by
    simp only [edit]
    split
    · rw [Text.sameIgnoringCase_comm]
      exact hname.2
    · exact h
  passed t top name ht _ hname h htop := by
    simp only [edit]
    by_cases htag : t.tag = old
    · -- an end tag that passes `old` closes no `old`, so it keeps its name
      have htop' : top.tag ≠ old := by
        rintro heq
        rw [htag, ← heq, htop] at h
        cases h
      simp only [htag, beq_self_eq_true, if_true, beq_iff_eq, htop', if_false]
      rw [Text.sameIgnoringCase_comm]
      exact hname.2
    · simp only [beq_iff_eq, htag, if_false]
      split
      · exact ht
      · exact h
  matched top name _ _ htop := by
    simp only [edit]
    split
    · simp [Text.sameIgnoringCase]
    · exact htop

end Rename

end ExtensionAudit
