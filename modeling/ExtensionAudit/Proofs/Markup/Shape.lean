import ExtensionAudit.Proofs.Markup.Tree
/-
  Trees up to the content of their texts. Two builders are alike when they differ
  in no more than that; a token that both take in leaves them alike, and so does
  text of which one takes in more than the other, as long as the lines agree.

  Main statements: `Builder.Alike.foldl` and `Builder.Alike.finish`, what is built
  on alike builders is alike.
-/

namespace ExtensionAudit.Markup

namespace Node

mutual

def withoutText : Node → Node
  | .text _ line => .text [] line
  | .element e children => .element e (withoutTextAll children)

/-- The nodes with their texts emptied. -/
def withoutTextAll : List Node → List Node
  | [] => []
  | n :: ns => n.withoutText :: withoutTextAll ns

end

theorem withoutTextAll_eq_map (ns : List Node) : withoutTextAll ns = ns.map withoutText := by
  induction ns with
  | nil => rfl
  | cons n ns ih => simp [withoutTextAll, ih]

mutual

theorem elements_withoutText (n : Node) : n.withoutText.elements = n.elements := by
  cases n with
  | text => rfl
  | element e children => simp [withoutText, elements, elementsAll_withoutTextAll children]

theorem elementsAll_withoutTextAll (ns : List Node) :
    elementsAll (withoutTextAll ns) = elementsAll ns := by
  cases ns with
  | nil => rfl
  | cons n ns =>
    simp [withoutTextAll, elementsAll, elements_withoutText n, elementsAll_withoutTextAll ns]

end

end Node

def OpenElement.withoutText (o : OpenElement) : OpenElement :=
  { o with before := Node.withoutTextAll o.before }

namespace Builder

/-- Two trees under construction that differ at most in the content of their texts. -/
structure Alike (b₁ b₂ : Builder) : Prop where
  stack : b₁.stack.map OpenElement.withoutText = b₂.stack.map OpenElement.withoutText
  siblings : b₁.siblings.map Node.withoutText = b₂.siblings.map Node.withoutText
  pending : b₁.pending.isEmpty = b₂.pending.isEmpty
  pendingLine : b₁.pendingLine = b₂.pendingLine
  line : b₁.line = b₂.line

namespace Alike

variable {b₁ b₂ : Builder}

theorem refl (b : Builder) : Alike b b := ⟨rfl, rfl, rfl, rfl, rfl⟩

theorem addText (h : Alike b₁ b₂) {s t : Text} (hst : s.isEmpty = t.isEmpty) :
    Alike (b₁.addText s) (b₂.addText t) where
  stack := h.stack
  siblings := h.siblings
  pending := by
    have hempty (x y : Text) : (x.reverse ++ y).isEmpty = (x.isEmpty && y.isEmpty) := by
      rw [Bool.eq_iff_iff]
      simp
    simp only [Builder.addText, hempty, hst, h.pending]
  pendingLine := by simp only [Builder.addText, h.pending, h.line, h.pendingLine]
  line := h.line

theorem flush (h : Alike b₁ b₂) : Alike b₁.flush b₂.flush := by
  unfold Builder.flush
  rw [h.pending]
  split
  · exact h
  · exact ⟨h.stack, by simp [Node.withoutText, h.siblings, h.pendingLine], rfl, h.pendingLine,
      h.line⟩

theorem add (h : Alike b₁ b₂) (n : Node) : Alike (b₁.add n) (b₂.add n) :=
  ⟨h.stack, by simp [Builder.add, h.siblings], h.pending, h.pendingLine, h.line⟩

theorem close (h : Alike b₁ b₂) (c : Closing) : Alike (b₁.close c) (b₂.close c) := by
  have hstack := h.stack
  unfold Builder.close
  cases h₁ : b₁.stack with
  | nil =>
    obtain h₂ : b₂.stack = [] := by simpa [h₁] using hstack
    rw [h₂]
    exact h
  | cons top outer =>
    rw [h₁, List.map_cons] at hstack
    obtain ⟨top', outer', h₂, htop, houter⟩ := List.map_eq_cons_iff.mp hstack.symm
    rw [h₂]
    simp only [OpenElement.withoutText, OpenElement.mk.injEq, Node.withoutTextAll_eq_map] at htop
    obtain ⟨hstart, hline, hbefore⟩ := htop
    refine ⟨houter.symm, ?_, h.pending, h.pendingLine, h.line⟩
    simp [Node.withoutText, Node.withoutTextAll_eq_map, hstart, hline, hbefore, h.siblings]

theorem closeUnclosed (h : Alike b₁ b₂) (n : Nat) :
    Alike (b₁.closeUnclosed n) (b₂.closeUnclosed n) := by
  induction n generalizing b₁ b₂ with
  | zero => exact h
  | succ n ih => exact ih (h.close .unclosed)

theorem depthOf? (h : Alike b₁ b₂) (name : Text) : b₁.depthOf? name = b₂.depthOf? name := by
  -- the name of an open element is not among the texts in front of it
  have htag (b : Builder) : b.depthOf? name =
      (b.stack.map OpenElement.withoutText).findIdx? (·.isClosedBy name) := by
    rw [List.findIdx?_map]
    rfl
  rw [htag, htag, h.stack]

theorem innermost? (h : Alike b₁ b₂) (name : Text) :
    b₁.innermost? name = b₂.innermost? name := by
  have hstart (b : Builder) : b.innermost? name =
      ((b.stack.map OpenElement.withoutText).find? (·.isClosedBy name)).map (·.start) := by
    rw [List.find?_map, Option.map_map]
    rfl
  rw [hstart, hstart, h.stack]

theorem place (h : Alike b₁ b₂) (t : Token) : Alike (b₁.place t) (b₂.place t) := by
  cases t with
  | text content => exact h.addText rfl
  | startTag start selfClosing =>
    have hflush := h.flush
    simp only [Builder.place, hflush.line]
    split
    · exact hflush.add _
    · split
      · exact hflush.add _
      · refine ⟨?_, rfl, hflush.pending, hflush.pendingLine, rfl⟩
        simp [OpenElement.withoutText, Node.withoutTextAll_eq_map, hflush.siblings, h.stack]
  | rawElement start content name trailing =>
    simp only [Builder.place, h.flush.line]
    exact h.flush.add _
  | endTag name trailing =>
    simp only [Builder.place, h.depthOf? name]
    split
    · exact h.addText rfl
    · exact (h.flush.closeUnclosed _).close _

/-- A token that both take in leaves two builders alike. -/
theorem next (h : Alike b₁ b₂) (t : Token) : Alike (b₁.next t) (b₂.next t) := by
  have hplace := h.place t
  refine ⟨hplace.stack, hplace.siblings, hplace.pending, hplace.pendingLine, ?_⟩
  simp only [Builder.next, h.line]

theorem next_text (h : Alike b₁ b₂) {s t : Text} (hst : s.isEmpty = t.isEmpty)
    (hlines : Text.lineBreaks s = Text.lineBreaks t) :
    Alike (b₁.next (.text s)) (b₂.next (.text t)) := by
  have htext := h.addText hst
  refine ⟨htext.stack, htext.siblings, htext.pending, htext.pendingLine, ?_⟩
  simp only [Builder.next, Token.render, h.line, hlines]

theorem foldl (h : Alike b₁ b₂) (ts : List Token) :
    Alike (ts.foldl Builder.next b₁) (ts.foldl Builder.next b₂) := by
  induction ts generalizing b₁ b₂ with
  | nil => exact h
  | cons t ts ih => exact ih (h.next t)

theorem finish (h : Alike b₁ b₂) :
    Node.withoutTextAll b₁.finish = Node.withoutTextAll b₂.finish := by
  have hlength : b₁.flush.stack.length = b₂.flush.stack.length := by
    have hmap := congrArg List.length h.flush.stack
    simpa only [List.length_map] using hmap
  have hclosed := (h.flush.closeUnclosed b₂.flush.stack.length).siblings
  simp only [Builder.finish, Node.withoutTextAll_eq_map, List.map_reverse, hlength, hclosed]

end Alike

/-! ## Text in pieces -/

theorem next_text_append (b : Builder) {s : Text} (hs : s ≠ []) (t : Text) :
    (b.next (.text s)).next (.text t) = b.next (.text (s ++ t)) := by
  have hpending : (s.reverse ++ b.pending).isEmpty = false := by simp [hs]
  simp [next, place, addText, Token.render, Text.lineBreaks_append, hpending, Nat.add_assoc]

theorem foldl_text (b : Builder) {s : Text} (hs : s ≠ []) (contents : List Text) :
    (contents.map Token.text).foldl next (b.next (.text s)) =
      b.next (.text (s ++ contents.flatten)) := by
  induction contents generalizing s with
  | nil => simp
  | cons t contents ih =>
    rw [List.map_cons, List.foldl_cons, next_text_append b hs, ih (by simp [hs]),
      List.flatten_cons, List.append_assoc]

theorem foldl_text_of_ne_nil (b : Builder) {contents : List Text}
    (hne : ∀ content ∈ contents, content ≠ []) (hflatten : contents.flatten ≠ []) :
    (contents.map Token.text).foldl next b = b.next (.text contents.flatten) := by
  cases contents with
  | nil => exact absurd rfl hflatten
  | cons s contents => exact foldl_text b (hne s List.mem_cons_self) contents

end Builder

/-- After the same tokens, builders are alike that took in other texts on as many lines. -/
theorem Builder.alike_of_texts (b : Builder) {contents₁ contents₂ : List Text}
    (hne₁ : ∀ content ∈ contents₁, content ≠ []) (hne₂ : ∀ content ∈ contents₂, content ≠ [])
    (h₁ : contents₁.flatten ≠ []) (h₂ : contents₂.flatten ≠ [])
    (hlines : Text.lineBreaks contents₁.flatten = Text.lineBreaks contents₂.flatten) :
    Alike ((contents₁.map Token.text).foldl next b) ((contents₂.map Token.text).foldl next b) := by
  have hempty : contents₁.flatten.isEmpty = contents₂.flatten.isEmpty := by
    rw [List.isEmpty_eq_false_iff.mpr h₁, List.isEmpty_eq_false_iff.mpr h₂]
  rw [foldl_text_of_ne_nil b hne₁ h₁, foldl_text_of_ne_nil b hne₂ h₂]
  exact (Alike.refl b).next_text hempty hlines

end ExtensionAudit.Markup
