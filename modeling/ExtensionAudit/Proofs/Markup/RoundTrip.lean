import ExtensionAudit.Proofs.Markup.TagEdit
import ExtensionAudit.Proofs.Results
/-
  Reading and writing without an edit in between. The tree of a template is
  written as the tokens that it was made of, and the tokens as the source, so
  nothing of a source is lost, whatever it is a mix of.

  Main statement: `Document.render_eq_of_parse`.
-/

namespace ExtensionAudit.Markup

theorem TagEdit.tokens_nothing (b : Builder) (ts : List Token) :
    TagEdit.nothing.tokens b ts = ts := by
  induction ts generalizing b with
  | nil => rfl
  | cons t ts ih =>
    simp only [TagEdit.tokens, ih]
    cases t with
    | endTag name trailing =>
      simp only [TagEdit.token]
      cases b.innermost? name <;> rfl
    | _ => rfl

theorem renderAll_build (ts : List Token) :
    Node.renderAll (build ts) = ts.flatMap Token.render := by
  have h := renderAll_apply_build .nothing ts
  rwa [TagEdit.apply_nothing, Node.mapElementsAll_id, TagEdit.tokens_nothing] at h

namespace Document

theorem ofText_eq_ok_iff {s : Text} {d : Document} :
    ofText s = .ok d ↔ ∃ ts, tokens s = .ok ts ∧ d = ⟨build ts⟩ := by
  unfold ofText
  cases tokens s with
  | error => simp
  | ok ts => simp [eq_comm]

theorem exists_of_any (source : String) (p : Document → Bool)
    (h : (parse source).toOption.any p = true) : ∃ d, parse source = .ok d ∧ p d = true :=
  exists_ok_of_any h

theorem toText_of_ofText {s : Text} {d : Document} (h : ofText s = .ok d) : d.toText = s := by
  obtain ⟨ts, hts, rfl⟩ := ofText_eq_ok_iff.mp h
  rw [toText, renderAll_build, tokens_render hts]

/-- A template is written as the source that it was read from. -/
theorem render_eq_of_parse {source : String} {d : Document} (h : parse source = .ok d) :
    d.render = source := by
  rw [render, toText_of_ofText h, String.ofList_toList]

/-- A template with a stray `=`, an unmatched end tag and an element that nothing closes. -/
theorem render_eq_of_parse_unclosed :
    ∃ d, parse "<P a = '>' =b \x7b\x7bx\x7d\x7d><br/></q></p ><i>" = .ok d ∧
      d.render = "<P a = '>' =b \x7b\x7bx\x7d\x7d><br/></q></p ><i>" := by
  obtain ⟨d, hd, -⟩ := exists_of_any "<P a = '>' =b \x7b\x7bx\x7d\x7d><br/></q></p ><i>"
    (fun _ => true) (by decide +kernel)
  exact ⟨d, hd, render_eq_of_parse hd⟩

end Document

end ExtensionAudit.Markup
