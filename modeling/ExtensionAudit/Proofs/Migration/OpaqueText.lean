import ExtensionAudit.Proofs.Markup.Opaque
import ExtensionAudit.Proofs.Markup.Shape
import ExtensionAudit.Proofs.Migration.Edits
/-
  The content of Twig constructs and comments is text and nothing else. Two
  templates that differ in an opaque construct only have the same elements, which
  are those in front of it and those behind it; the same is found in them, and
  what is written after a migration has the construct as it stood.

  Main statement: `Document.parse_around_opaque`.
-/

namespace ExtensionAudit.Markup

namespace TagEdit

variable (E : TagEdit)

theorem tokens_append (b : Builder) (ts us : List Token) :
    E.tokens b (ts ++ us) = E.tokens b ts ++ E.tokens (ts.foldl Builder.next b) us := by
  induction ts generalizing b with
  | nil => rfl
  | cons t ts ih => simp only [List.cons_append, tokens, ih, List.foldl_cons]

theorem tokens_texts (b : Builder) (contents : List Text) :
    E.tokens b (contents.map .text) = contents.map .text := by
  induction contents generalizing b with
  | nil => rfl
  | cons content contents ih => simp only [List.map_cons, tokens, token, ih]

theorem tokens_of_alike {b₁ b₂ : Builder} (h : b₁.Alike b₂) (ts : List Token) :
    E.tokens b₁ ts = E.tokens b₂ ts := by
  induction ts generalizing b₁ b₂ with
  | nil => rfl
  | cons t ts ih =>
    have ht : E.token b₁ t = E.token b₂ t := by
      cases t with
      | endTag name trailing => simp only [token, h.innermost? name]
      | _ => rfl
    rw [tokens, tokens, ht, ih (h.next t)]

end TagEdit

theorem render_texts (contents : List Text) :
    (contents.map Token.text).flatMap Token.render = contents.flatten := by
  induction contents with
  | nil => rfl
  | cons content contents ih => simp [Token.render, ih]

theorem renderAll_around_texts (E : TagEdit) (ts us : List Token) (contents : List Text) :
    Node.renderAll (Node.mapElementsAll E.apply (build (ts ++ contents.map .text ++ us))) =
      (E.tokens .empty ts).flatMap Token.render ++ contents.flatten ++
        (E.tokens ((contents.map Token.text).foldl Builder.next (ts.foldl Builder.next .empty))
          us).flatMap Token.render := by
  rw [renderAll_apply_build, E.tokens_append, E.tokens_append, E.tokens_texts, List.foldl_append,
    List.flatMap_append, List.flatMap_append, render_texts]

/-- Two templates that were read around the texts `o₁` and `o₂`, behind the same template
`before` and in front of the same template `behind`. -/
structure Document.AlikeAround (o₁ o₂ : String) (before behind d₁ d₂ : Document) : Prop where
  tree : Node.withoutTextAll d₁.nodes = Node.withoutTextAll d₂.nodes
  elements : d₁.elements = d₂.elements
  startTags : d₁.startTags = before.startTags ++ behind.startTags
  findings : ∀ r : Rename, r.check d₁.nodes = r.check d₂.nodes
  changes : ∀ r : Rename, (r.fix d₁.nodes).2 = (r.fix d₂.nodes).2
  written : ∀ rs : List Rename, ∃ front back : String,
    (Document.mk (Rename.inOrder rs d₁.nodes)).render = front ++ o₁ ++ back ∧
    (Document.mk (Rename.inOrder rs d₂.nodes)).render = front ++ o₂ ++ back

/-- Tokens with texts between them that are on as many lines and begin with `o₁` and `o₂`. -/
theorem Document.alikeAround_of_texts {o₁ o₂ plain : Text} (ts us : List Token)
    {contents₁ contents₂ : List Text} (hne₁ : ∀ content ∈ contents₁, content ≠ [])
    (hne₂ : ∀ content ∈ contents₂, content ≠ []) (h₁ : contents₁.flatten = o₁ ++ plain)
    (h₂ : contents₂.flatten = o₂ ++ plain) (ho₁ : o₁ ≠ []) (ho₂ : o₂ ≠ [])
    (hlines : Text.lineBreaks o₁ = Text.lineBreaks o₂) :
    AlikeAround (String.ofList o₁) (String.ofList o₂) ⟨build ts⟩ ⟨build (plainToken plain ++ us)⟩
      ⟨build (ts ++ contents₁.map .text ++ us)⟩ ⟨build (ts ++ contents₂.map .text ++ us)⟩ := by
  have halike := Builder.alike_of_texts (ts.foldl Builder.next .empty) hne₁ hne₂
    (by simp [h₁, ho₁]) (by simp [h₂, ho₂])
    (by rw [h₁, h₂, Text.lineBreaks_append, Text.lineBreaks_append, hlines])
  have htree : Node.withoutTextAll (build (ts ++ contents₁.map .text ++ us)) =
      Node.withoutTextAll (build (ts ++ contents₂.map .text ++ us)) := by
    simp only [build, List.foldl_append]
    exact (halike.foldl us).finish
  have helements : Node.elementsAll (build (ts ++ contents₁.map .text ++ us)) =
      Node.elementsAll (build (ts ++ contents₂.map .text ++ us)) := by
    rw [← Node.elementsAll_withoutTextAll, htree, Node.elementsAll_withoutTextAll]
  refine ⟨htree, helements, ?_, ?_, ?_, ?_⟩
  · have htext (contents : List Text) :
        (contents.map Token.text).filterMap Token.start? = [] := by
      induction contents with
      | nil => rfl
      | cons content contents ih => exact ih
    have hplain : (plainToken plain).filterMap Token.start? = [] := by
      unfold plainToken
      split <;> rfl
    simp only [Document.startTags_eq, List.filterMap_append, htext, hplain, List.append_nil,
      List.nil_append]
  · intro r
    simp only [Rename.check, helements]
  · intro r
    simp only [Rename.fix, helements]
  · intro rs
    -- the edit is carried out on the tokens around the texts, from alike builders on
    have hrender (o : Text) (contents : List Text) (h : contents.flatten = o ++ plain) :
        (Document.mk (Rename.inOrder rs (build (ts ++ contents.map .text ++ us)))).render =
          String.ofList (((Rename.editAll rs).tokens .empty ts).flatMap Token.render) ++
            String.ofList o ++ String.ofList (plain ++ ((Rename.editAll rs).tokens
              ((contents.map Token.text).foldl Builder.next (ts.foldl Builder.next .empty))
              us).flatMap Token.render) := by
      rw [Document.render, Document.toText, Rename.inOrder_eq_editAll, renderAll_around_texts, h]
      simp only [← String.ofList_append, List.append_assoc]
    refine ⟨_, _, hrender o₁ contents₁ h₁, ?_⟩
    rw [(Rename.editAll rs).tokens_of_alike halike]
    exact hrender o₂ contents₂ h₂

namespace Document

/-- The content of a Twig construct or of a comment never influences the tree: two templates
with opaque constructs on as many lines in one place both end inside the same construct on the
same line, or both are read and differ in the content of texts only. -/
theorem parse_around_opaque {p q o₁ o₂ : String} {before : Document} (hp : parse p = .ok before)
    (hend : p.toList.getLast? ≠ some '{') (h₁ : Opaque o₁.toList) (h₂ : Opaque o₂.toList)
    (hlines : Text.lineBreaks o₁.toList = Text.lineBreaks o₂.toList) :
    (∃ e, parse (p ++ o₁ ++ q) = .error e ∧ parse (p ++ o₂ ++ q) = .error e) ∨
      ∃ behind d₁ d₂, parse q = .ok behind ∧ parse (p ++ o₁ ++ q) = .ok d₁ ∧
        parse (p ++ o₂ ++ q) = .ok d₂ ∧ AlikeAround o₁ o₂ before behind d₁ d₂ := by
  obtain ⟨ts, hts, rfl⟩ := ofText_eq_ok_iff.mp hp
  obtain ⟨contents₁, hflatten₁, hne₁, htokens₁⟩ := tokens_around_opaque hts hend h₁ q.toList
  obtain ⟨contents₂, hflatten₂, hne₂, htokens₂⟩ := tokens_around_opaque hts hend h₂ q.toList
  have hsource (o : String) : (p ++ o ++ q).toList = p.toList ++ (o.toList ++ q.toList) := by
    simp [String.toList_append]
  simp only [parse, ofText, hsource, htokens₁, htokens₂, tokens_plain q.toList]
  -- what stands behind the plain text decides about both
  cases tokens (q.toList.dropWhile isPlain) with
  | error cut =>
    left
    have hlength : Text.lineBreaks (p.toList ++ (o₁.toList ++ q.toList)) =
        Text.lineBreaks (p.toList ++ (o₂.toList ++ q.toList)) := by
      simp only [Text.lineBreaks_append, hlines]
    exact ⟨_, rfl, by simp only [Except.map, lineAt, hlength]⟩
  | ok us =>
    right
    refine ⟨_, _, _, rfl, rfl, rfl, ?_⟩
    have h := alikeAround_of_texts ts us hne₁ hne₂ hflatten₁ hflatten₂ h₁.ne_nil h₂.ne_nil hlines
    rwa [String.ofList_toList, String.ofList_toList] at h

/-- An expression that holds a start tag and ends with three braces, against a comment that holds
a Twig opener. -/
theorem parse_around_opaque_braces :
    let p := "<sw-card>\n<"
    let o₁ := "\x7b\x7b '<sw-button>' \x7d\x7d\x7d"
    let o₂ := "<!-- \x7b# data-toggle -->"
    let q := " \x7d\x7d<sw-button/></sw-card>"
    ∃ before, parse p = .ok before ∧ p.toList.getLast? ≠ some '{' ∧ Opaque o₁.toList ∧
      Opaque o₂.toList ∧ Text.lineBreaks o₁.toList = Text.lineBreaks o₂.toList ∧
      ∃ behind d₁ d₂, parse q = .ok behind ∧ parse (p ++ o₁ ++ q) = .ok d₁ ∧
        parse (p ++ o₂ ++ q) = .ok d₂ ∧ d₁.elements.length = 2 ∧
        AlikeAround o₁ o₂ before behind d₁ d₂ := by
  intro p o₁ o₂ q
  obtain ⟨before, hp, -⟩ := exists_of_any p (fun _ => true) (by decide +kernel)
  obtain ⟨d, hd, hlength⟩ := exists_of_any (p ++ o₁ ++ q) (fun d => d.elements.length = 2)
    (by decide +kernel)
  have hend : p.toList.getLast? ≠ some '{' := by decide +kernel
  have ho₁ : o₁.toList = '{' :: '{' :: (" '<sw-button>' \x7d".toList ++ ['}', '}']) := by
    decide +kernel
  have h₁ : Opaque o₁.toList := ho₁ ▸ .twigExpression (by decide +kernel)
  have ho₂ : o₂.toList =
      '<' :: '!' :: '-' :: '-' :: (" \x7b# data-toggle ".toList ++ ['-', '-', '>']) := by
    decide +kernel
  have h₂ : Opaque o₂.toList :=
    ho₂ ▸ .comment (by decide +kernel) (by decide +kernel) (by decide +kernel)
  have hlines : Text.lineBreaks o₁.toList = Text.lineBreaks o₂.toList := by decide +kernel
  refine ⟨before, hp, hend, h₁, h₂, hlines, ?_⟩
  rcases parse_around_opaque (q := q) hp hend h₁ h₂ hlines with
    ⟨e, he, -⟩ | ⟨behind, d₁, d₂, hq, hd₁, hd₂, halike⟩
  · rw [hd] at he
    cases he
  · obtain rfl : d = d₁ := by simpa [hd] using hd₁
    exact ⟨behind, d, d₂, hq, hd₁, hd₂, by simpa using hlength, halike⟩

end Document

end ExtensionAudit.Markup
