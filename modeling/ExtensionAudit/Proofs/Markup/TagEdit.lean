import ExtensionAudit.Markup.Edit
import ExtensionAudit.Proofs.Markup.Sweep
/-
  Edits of tags, on the tree and on the tokens. An edit changes the start tag of
  an element, and the end tag follows. On the tree it is applied element by
  element; on the tokens it is carried out from left to right, where an end tag
  looks up the open element that it closes.

  Main statements: `renderAll_apply_build` (both ways write the same text) and
  `startTags_build` (the elements of a tree have the start tags among its tokens).
-/

namespace ExtensionAudit.Markup

/-- A change to the tags of elements: what becomes of a start tag, and of the name in the end
tag of the element with this start tag. -/
structure TagEdit where
  start : StartTag → StartTag
  endName : StartTag → Text → Text

namespace TagEdit

/-- No change. -/
def nothing : TagEdit := ⟨id, fun _ name => name⟩

/-- One change after another. -/
def andThen (E F : TagEdit) : TagEdit where
  start t := F.start (E.start t)
  endName t name := F.endName (E.start t) (E.endName t name)

/-- The end of an element after the edit. -/
def closing (E : TagEdit) (t : StartTag) : Closing → Closing
  | .explicit name trailing => .explicit (E.endName t name) trailing
  | other => other

def apply (E : TagEdit) (e : Element) : Element :=
  ⟨E.start e.toStartTag, e.line, E.closing e.toStartTag e.closing⟩

theorem apply_nothing : nothing.apply = id := by
  funext e
  obtain ⟨t, line, c⟩ := e
  cases c <;> rfl

theorem apply_andThen (E F : TagEdit) : (E.andThen F).apply = F.apply ∘ E.apply := by
  funext e
  obtain ⟨t, line, c⟩ := e
  cases c <;> rfl

/-- The token after the edit, where the builder holds the tokens in front of it. -/
def token (E : TagEdit) (b : Builder) : Token → Token
  | .text content => .text content
  | .startTag start selfClosing => .startTag (E.start start) selfClosing
  | .rawElement start content name trailing =>
    .rawElement (E.start start) content (E.endName start name) trailing
  | .endTag name trailing =>
    match b.innermost? name with
    | some start => .endTag (E.endName start name) trailing
    | none => .endTag name trailing

/-- The tokens after the edit, where the builder holds the tokens in front of them. -/
def tokens (E : TagEdit) (b : Builder) : List Token → List Token
  | [] => []
  | t :: ts => E.token b t :: E.tokens (b.next t) ts

end TagEdit

/-! ## The text of an edited tree -/

/-- The text of a tree after an edit. -/
def Sweep.written (E : TagEdit) : Sweep Char where
  text content := content
  opening t := (E.start t).render
  ending t name trailing := (Closing.explicit (E.endName t name) trailing).render
  text_append _ _ := rfl

mutual

theorem Sweep.ofNode_written (E : TagEdit) (n : Node) :
    (Sweep.written E).ofNode n = (n.mapElements E.apply).render := by
  cases n with
  | text => rfl
  | element e children =>
    simp only [Sweep.ofNode, Node.mapElements, Node.render, Sweep.ofNodes_written E children]
    cases h : e.closing <;>
      simp [Sweep.written, Sweep.closing, TagEdit.apply, TagEdit.closing, h, Closing.render]

theorem Sweep.ofNodes_written (E : TagEdit) (ns : List Node) :
    (Sweep.written E).ofNodes ns = Node.renderAll (Node.mapElementsAll E.apply ns) := by
  cases ns with
  | nil => simp [Node.mapElementsAll, Node.renderAll]
  | cons n ns =>
    simp [Node.mapElementsAll, Node.renderAll, Sweep.ofNode_written E n,
      Sweep.ofNodes_written E ns]

end

theorem Sweep.ofTokens_written (E : TagEdit) (b : Builder) (ts : List Token) :
    (Sweep.written E).ofTokens b ts = (E.tokens b ts).flatMap Token.render := by
  induction ts generalizing b with
  | nil => rfl
  | cons t ts ih =>
    simp only [Sweep.ofTokens, TagEdit.tokens, List.flatMap_cons, ih]
    congr 1
    cases t with
    | endTag name trailing =>
      simp only [Sweep.ofToken, TagEdit.token]
      cases b.innermost? name <;> rfl
    | _ => simp [Sweep.ofToken, TagEdit.token, Sweep.written, Token.render]

/-- Editing the elements of a tree and writing it is writing the edited tokens. -/
theorem renderAll_apply_build (E : TagEdit) (ts : List Token) :
    Node.renderAll (Node.mapElementsAll E.apply (build ts)) =
      (E.tokens .empty ts).flatMap Token.render := by
  rw [← Sweep.ofNodes_written, Sweep.ofNodes_build, Sweep.ofTokens_written]

/-! ## The start tags of a tree -/

def Token.start? : Token → Option StartTag
  | .startTag start _ => some start
  | .rawElement start _ _ _ => some start
  | _ => none

def Sweep.startTags : Sweep StartTag where
  text _ := []
  opening t := [t]
  ending _ _ _ := []
  text_append _ _ := rfl

mutual

theorem Sweep.ofNode_startTags (n : Node) :
    Sweep.startTags.ofNode n = n.elements.map (·.toStartTag) := by
  cases n with
  | text => rfl
  | element e children =>
    simp only [Sweep.ofNode, Node.elements, Sweep.ofNodes_startTags children]
    cases h : e.closing <;> simp [Sweep.startTags, Sweep.closing]

theorem Sweep.ofNodes_startTags (ns : List Node) :
    Sweep.startTags.ofNodes ns = (Node.elementsAll ns).map (·.toStartTag) := by
  cases ns with
  | nil => simp [Node.elementsAll]
  | cons n ns =>
    simp [Node.elementsAll, Sweep.ofNode_startTags n, Sweep.ofNodes_startTags ns]

end

theorem Sweep.ofTokens_startTags (b : Builder) (ts : List Token) :
    Sweep.startTags.ofTokens b ts = ts.filterMap Token.start? := by
  induction ts generalizing b with
  | nil => rfl
  | cons t ts ih =>
    rw [Sweep.ofTokens, ih]
    cases t with
    | endTag name trailing =>
      simp only [Sweep.ofToken, Token.start?, List.filterMap_cons]
      cases b.innermost? name <;> rfl
    | _ => simp [Sweep.ofToken, Sweep.startTags, Token.start?, List.filterMap_cons]

/-- The elements of a tree have, in document order, the start tags among its tokens. -/
theorem startTags_build (ts : List Token) :
    (Node.elementsAll (build ts)).map (·.toStartTag) = ts.filterMap Token.start? := by
  rw [← Sweep.ofNodes_startTags, Sweep.ofNodes_build, Sweep.ofTokens_startTags]

theorem TagEdit.start?_token (E : TagEdit) (b : Builder) (t : Token) :
    (E.token b t).start? = t.start?.map E.start := by
  cases t with
  | endTag name trailing =>
    simp only [TagEdit.token]
    cases b.innermost? name <;> rfl
  | _ => rfl

theorem TagEdit.start?_tokens (E : TagEdit) (b : Builder) (ts : List Token) :
    (E.tokens b ts).filterMap Token.start? = (ts.filterMap Token.start?).map E.start := by
  induction ts generalizing b with
  | nil => rfl
  | cons t ts ih =>
    simp only [TagEdit.tokens, List.filterMap_cons, ih, E.start?_token b t]
    cases t.start? <;> rfl

end ExtensionAudit.Markup
