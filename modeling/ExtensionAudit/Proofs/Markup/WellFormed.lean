import ExtensionAudit.Proofs.Markup.Rereading
import Mathlib.Data.List.Chain
/-
  The form of the trees that are read. Text is collected until an element begins or
  ends, so no text node is empty and no two stand side by side. An end tag ends the
  elements that were opened since, all nested in the one that it closes, so an element
  without an end is the last one of its parent, and none of those that an end tag ends
  has its name.

  Main statements: `Document.shaped_of_parse` and `Document.endsOwn_of_parse`.
-/

namespace ExtensionAudit

theorem Text.sameIgnoringCase_iff {s t : Text} :
    Text.sameIgnoringCase s t = true ↔ s.map Char.toLower = t.map Char.toLower := by
  rw [Text.sameIgnoringCase, beq_iff_eq]

namespace Markup

theorem isTagIn_iff {names : List String} {tag : Text} :
    isTagIn names tag = true ↔ ∃ name ∈ names, Text.sameIgnoringCase name.toList tag = true := by
  rw [isTagIn, List.any_eq_true]

theorem isRawText_of_isVoid {tag : Text} (h : isVoid tag = true) : isRawText tag = false := by
  rw [← Bool.not_eq_true]
  intro hraw
  obtain ⟨void, hvoid, htag⟩ := isTagIn_iff.mp h
  obtain ⟨raw, hraw, htag'⟩ := isTagIn_iff.mp hraw
  have hsame : Text.sameIgnoringCase void.toList raw.toList = true := by
    rw [Text.sameIgnoringCase_iff] at *
    rw [htag, htag']
  have hapart : ∀ void ∈ voidTags, ∀ raw ∈ rawTextTags,
      Text.sameIgnoringCase void.toList raw.toList = false := by decide +kernel
  rw [hapart void hvoid raw hraw] at hsame
  cases hsame

/-! ## Forms -/

/-- The form of an element with its children. -/
structure Element.Shaped (e : Element) (children : List Node) : Prop where
  tag : IsTagName e.tag
  childless : e.closing = .selfClosing ∨ e.closing = .void → children = []
  void_tag : e.closing = .void → isVoid e.tag = true
  void_closing : isVoid e.tag = true → e.closing = .void ∨ e.closing = .selfClosing
  raw : isRawText e.tag = true → e.closing = .selfClosing ∨
    (∃ name trailing, e.closing = .explicit name trailing) ∧
      (children = [] ∨ ∃ content line, children = [.text content line])

section Shapes

variable {start : StartTag} (htag : IsTagName start.tag) (line : Nat)

include htag

theorem shaped_selfClosing : Element.Shaped ⟨start, line, .selfClosing⟩ [] where
  tag := htag
  childless _ := rfl
  void_tag h := by cases h
  void_closing _ := .inr rfl
  raw _ := .inl rfl

theorem shaped_void (hvoid : isVoid start.tag = true) : Element.Shaped ⟨start, line, .void⟩ [] where
  tag := htag
  childless _ := rfl
  void_tag _ := hvoid
  void_closing _ := .inl rfl
  raw hraw := by
    rw [isRawText_of_isVoid hvoid] at hraw
    cases hraw

theorem shaped_raw (hvoid : isVoid start.tag = false) (name trailing : Text) {children : List Node}
    (hchildren : children = [] ∨ ∃ content line, children = [.text content line]) :
    Element.Shaped ⟨start, line, .explicit name trailing⟩ children where
  tag := htag
  childless h := by simp at h
  void_tag h := by cases h
  void_closing h := by
    rw [hvoid] at h
    cases h
  raw _ := .inr ⟨⟨name, trailing, rfl⟩, hchildren⟩

theorem shaped_of_plain (hvoid : isVoid start.tag = false) (hraw : isRawText start.tag = false)
    {closing : Closing} (hclosing : closing ≠ .selfClosing ∧ closing ≠ .void)
    (children : List Node) : Element.Shaped ⟨start, line, closing⟩ children where
  tag := htag
  childless hnone := (hnone.elim hclosing.1 hclosing.2).elim
  void_tag h := (hclosing.2 h).elim
  void_closing h := by
    rw [hvoid] at h
    cases h
  raw h := by
    rw [hraw] at h
    cases h

end Shapes

/-- An element without an end among the nodes, or nested in such elements. -/
inductive Dangling : List Node → Element → Prop where
  | here {nodes children : List Node} {e : Element} : .element e children ∈ nodes →
      e.closing = .unclosed → Dangling nodes e
  | inside {nodes children : List Node} {e f : Element} : .element e children ∈ nodes →
      e.closing = .unclosed → Dangling children f → Dangling nodes f

/-- An end tag has the name of the element that it closes, and none of the elements that it ends
with that one has this name. The end of raw text is no end tag of this kind. -/
def Element.EndsOwn (e : Element) (children : List Node) : Prop :=
  ∀ name trailing, e.closing = .explicit name trailing → isRawText e.tag = false →
    Text.sameIgnoringCase name e.tag = true ∧
      ∀ f, Dangling children f → Text.sameIgnoringCase f.tag e.tag = false

theorem endsOwn_of_closing {e : Element} (children : List Node)
    (h : ∀ name trailing, e.closing ≠ .explicit name trailing) : e.EndsOwn children :=
  fun name trailing hclosing => absurd hclosing (h name trailing)

namespace Node

/-- The nodes side by side in a forest: its roots, or the children of one of its elements. -/
inductive Level (roots : List Node) : List Node → Prop where
  | roots : Level roots roots
  | children {siblings children : List Node} {e : Element} : Level roots siblings →
      .element e children ∈ siblings → Level roots children

/-- Whether a node has reached its end: a text, or an element that was closed. -/
def HasEnd : Node → Prop
  | .text _ _ => True
  | .element e _ => e.closing ≠ .unclosed

def IsElement : Node → Prop
  | .text _ _ => False
  | .element _ _ => True

def isElementWith (p : Element → List Node → Bool) : Node → Bool
  | .text _ _ => false
  | .element e children => p e children

theorem exists_of_any_isElementWith {nodes : List Node} {p : Element → List Node → Bool}
    (h : nodes.any (isElementWith p) = true) :
    ∃ e children, .element e children ∈ nodes ∧ p e children = true := by
  obtain ⟨n, hn, hp⟩ := List.any_eq_true.mp h
  cases n with
  | text => cases hp
  | element e children => exact ⟨e, children, hn, hp⟩

/-- Whether a node may stand in front of another: it has an end, and not both are texts. -/
def MayPrecede (m n : Node) : Prop := m.HasEnd ∧ (m.IsElement ∨ n.IsElement)

/-- A text is not empty, an element has its form. -/
def Shaped : Node → Prop
  | .text content _ => content ≠ []
  | .element e children => e.Shaped children

/-- A node that has its form, as have all nodes below it. -/
inductive WellFormed : Node → Prop where
  | text {content : Text} {line : Nat} : content ≠ [] → WellFormed (.text content line)
  | element {e : Element} {children : List Node} : e.Shaped children → e.EndsOwn children →
      children.IsChain MayPrecede → (∀ n ∈ children, n.WellFormed) →
      WellFormed (.element e children)

theorem WellFormed.shaped {n : Node} (h : n.WellFormed) : n.Shaped := by
  cases h with
  | text hne => exact hne
  | element hshaped _ _ _ => exact hshaped

theorem WellFormed.endsOwn {e : Element} {children : List Node}
    (h : (Node.element e children).WellFormed) : e.EndsOwn children := by
  cases h with
  | element _ hown _ _ => exact hown

/-- In a forest of well-formed nodes all nodes are, and those side by side may be so. -/
theorem Level.wellFormed {roots siblings : List Node} (hlevel : Level roots siblings)
    (hchain : roots.IsChain MayPrecede) (hroots : ∀ n ∈ roots, n.WellFormed) :
    siblings.IsChain MayPrecede ∧ ∀ n ∈ siblings, n.WellFormed := by
  induction hlevel with
  | roots => exact ⟨hchain, hroots⟩
  | children _ hmem ih =>
    cases ih.2 _ hmem with
    | element _ _ hchain hchildren => exact ⟨hchain, hchildren⟩

end Node

theorem Dangling.mono {nodes nodes' : List Node} {f : Element} (h : Dangling nodes f)
    (hnodes : ∀ n ∈ nodes, n ∈ nodes') : Dangling nodes' f := by
  cases h with
  | here hmem hclosing => exact .here (hnodes _ hmem) hclosing
  | inside hmem hclosing hf => exact .inside (hnodes _ hmem) hclosing hf

/-- Among nodes that have all reached their ends but the first, only the first may be without one. -/
theorem Dangling.eq_or {nodes children : List Node} {e f : Element}
    (h : Dangling (.element e children :: nodes) f) (hended : ∀ n ∈ nodes, n.HasEnd) :
    f = e ∨ Dangling children f := by
  cases h with
  | here hmem hclosing =>
    rcases List.mem_cons.mp hmem with heq | hmem
    · cases heq
      exact .inl rfl
    · exact absurd hclosing (hended _ hmem)
  | inside hmem hclosing hf =>
    rcases List.mem_cons.mp hmem with heq | hmem
    · cases heq
      exact .inr hf
    · exact absurd hclosing (hended _ hmem)

theorem not_dangling {nodes : List Node} (hended : ∀ n ∈ nodes, n.HasEnd) (f : Element) :
    ¬Dangling nodes f := by
  intro h
  cases h with
  | here hmem hclosing => exact hended _ hmem hclosing
  | inside hmem hclosing _ => exact hended _ hmem hclosing

/-! ## Finished siblings -/

/-- Well-formed nodes side by side, the last one first. -/
structure Siblings (nodes : List Node) : Prop where
  chain : nodes.IsChain fun n m => m.MayPrecede n
  wellFormed : ∀ n ∈ nodes, n.WellFormed

namespace Siblings

variable {nodes : List Node}

theorem nil : Siblings [] := ⟨.nil, by simp⟩

theorem reverse (h : Siblings nodes) :
    nodes.reverse.IsChain Node.MayPrecede ∧ ∀ n ∈ nodes.reverse, n.WellFormed :=
  ⟨List.isChain_reverse.mpr h.chain, fun n hn => h.wellFormed n (List.mem_reverse.mp hn)⟩

theorem cons (h : Siblings nodes) {n : Node} (hn : n.WellFormed)
    (hend : ∀ m ∈ nodes, m.HasEnd) (helement : ∀ m ∈ nodes.head?, m.IsElement ∨ n.IsElement) :
    Siblings (n :: nodes) where
  chain := List.isChain_cons.mpr
    ⟨fun m hm => ⟨hend m (List.mem_of_head? hm), helement m hm⟩, h.chain⟩
  wellFormed := List.forall_mem_cons.mpr ⟨hn, h.wellFormed⟩

end Siblings

/-! ## The tree under construction -/

/-- An open element that may have children, behind well-formed nodes that have all reached their
ends. -/
structure OpenElement.WellFormed (o : OpenElement) : Prop where
  tag : IsTagName o.start.tag
  not_void : isVoid o.start.tag = false
  not_raw : isRawText o.start.tag = false
  before : Siblings o.before
  ended : ∀ n ∈ o.before, n.HasEnd

namespace Builder

variable {b : Builder}

/-- A builder that is ending elements: its nodes are well-formed. -/
structure Ending (b : Builder) : Prop where
  siblings : Siblings b.siblings
  stack : ∀ o ∈ b.stack, o.WellFormed

/-- A builder without collected text: its finished nodes have reached their ends. -/
structure Flushed (b : Builder) : Prop extends Ending b where
  ended : ∀ n ∈ b.siblings, n.HasEnd

/-- A builder between two tokens: the text it has collected follows an element. -/
structure WellFormed (b : Builder) : Prop extends Flushed b where
  apart : ∀ n ∈ b.siblings.head?, n.IsElement

theorem WellFormed.empty : empty.WellFormed where
  siblings := .nil
  stack := by simp [Builder.empty]
  ended := by simp [Builder.empty]
  apart := by simp [Builder.empty]

theorem WellFormed.addText (h : b.WellFormed) (content : Text) : (b.addText content).WellFormed :=
  ⟨⟨⟨h.siblings, h.stack⟩, h.ended⟩, h.apart⟩

theorem WellFormed.flush (h : b.WellFormed) : b.flush.Flushed := by
  unfold Builder.flush
  split
  · exact h.toFlushed
  · rename_i hpending
    have htext : (Node.text b.pending.reverse b.pendingLine).WellFormed :=
      .text (by simpa using hpending)
    -- the text stands behind an element, so no two texts meet
    exact ⟨⟨h.siblings.cons htext h.ended fun m hm => .inl (h.apart m hm), h.stack⟩,
      List.forall_mem_cons.mpr ⟨trivial, h.ended⟩⟩

theorem Flushed.add (h : b.Flushed) {e : Element} {children : List Node}
    (he : (Node.element e children).WellFormed) (hend : e.closing ≠ .unclosed) :
    (b.add (.element e children)).WellFormed where
  siblings := h.siblings.cons he h.ended fun _ _ => .inr trivial
  stack := h.stack
  ended := List.forall_mem_cons.mpr ⟨hend, h.ended⟩
  apart := by simp [Builder.add, Node.IsElement]

/-! ## Ending elements -/

theorem close_cons {top : OpenElement} {outer : List OpenElement} (hstack : b.stack = top :: outer)
    (closing : Closing) : (b.close closing).siblings =
      .element ⟨top.start, top.line, closing⟩ b.siblings.reverse :: top.before := by
  rw [Builder.close, hstack]

theorem Ending.close (h : b.Ending) {top : OpenElement} {outer : List OpenElement}
    (hstack : b.stack = top :: outer) {closing : Closing}
    (hclosing : closing ≠ .selfClosing ∧ closing ≠ .void)
    (hown : Element.EndsOwn ⟨top.start, top.line, closing⟩ b.siblings.reverse) :
    (b.close closing).Ending := by
  have htop : top.WellFormed := h.stack top (by simp [hstack])
  have helement := Node.WellFormed.element
    (shaped_of_plain htop.tag top.line htop.not_void htop.not_raw hclosing b.siblings.reverse) hown
    h.siblings.reverse.1 h.siblings.reverse.2
  refine ⟨?_, fun o ho => h.stack o (List.mem_of_mem_tail (by simpa using ho))⟩
  rw [close_cons hstack]
  exact htop.before.cons helement htop.ended fun _ _ => .inr trivial

theorem Ending.closeUnclosed (h : b.Ending) (n : Nat) : (b.closeUnclosed n).Ending := by
  induction n generalizing b with
  | zero => exact h
  | succ n ih =>
    refine ih ?_
    cases hstack : b.stack with
    | nil =>
      rw [Builder.close, hstack]
      exact h
    | cons top outer => exact h.close hstack (by simp) (endsOwn_of_closing _ (by simp))

/-- Elements that are ended without an end tag are nested in each other, so all of them are passed
over by a name that passes over each. -/
theorem Ending.dangling_closeUnclosed (h : b.Ending) {name : Text} (n : Nat)
    (hname : ∀ f, Dangling b.siblings f → Text.sameIgnoringCase f.tag name = false)
    (hstack : ∀ o ∈ b.stack.take n, o.isClosedBy name = false) :
    ∀ f, Dangling (b.closeUnclosed n).siblings f → Text.sameIgnoringCase f.tag name = false := by
  induction n generalizing b with
  | zero => exact hname
  | succ n ih =>
    cases hcons : b.stack with
    | nil =>
      have hclose : b.close .unclosed = b := by rw [Builder.close, hcons]
      rw [Builder.closeUnclosed, hclose]
      exact ih h hname (by simp [hcons])
    | cons top outer =>
      rw [hcons, List.take_succ_cons] at hstack
      obtain ⟨htop, houter⟩ := List.forall_mem_cons.mp hstack
      -- what was without an end is nested in the element that is ended now
      refine ih (h.closeUnclosed 1) ?_ (by simpa [hcons] using houter)
      intro f hf
      rw [close_cons hcons] at hf
      rcases hf.eq_or (h.stack top (by simp [hcons])).ended with rfl | hf
      · exact htop
      · exact hname f (hf.mono fun _ => List.mem_reverse.mp)

theorem Flushed.closeNamed (h : b.Flushed) {inner outer : List OpenElement} {top : OpenElement}
    {name : Text} (hstack : b.stack = inner ++ top :: outer)
    (hinner : ∀ o ∈ inner, o.isClosedBy name = false) (htop : top.isClosedBy name = true)
    (trailing : Text) :
    ((b.closeUnclosed inner.length).close (.explicit name trailing)).WellFormed := by
  have hending := h.toEnding.closeUnclosed inner.length
  have hrest : (b.closeUnclosed inner.length).stack = top :: outer := by simp [hstack]
  have hpassed := h.toEnding.dangling_closeUnclosed inner.length
    (fun f hf => absurd hf (not_dangling h.ended f)) (by simpa [hstack] using hinner)
  have hsame := Text.sameIgnoringCase_iff.mp htop
  have hown : Element.EndsOwn ⟨top.start, top.line, .explicit name trailing⟩
      (b.closeUnclosed inner.length).siblings.reverse := by
    rintro _ _ ⟨⟩ -
    refine ⟨Text.sameIgnoringCase_iff.mpr hsame.symm, fun f hf => ?_⟩
    have hf := hpassed f (hf.mono fun _ => List.mem_reverse.mp)
    rwa [Text.sameIgnoringCase, ← hsame] at hf
  have hwell : top.WellFormed := h.stack top (by simp [hstack])
  refine ⟨⟨hending.close hrest (by simp) hown, ?_⟩, ?_⟩
  · rw [close_cons hrest]
    exact List.forall_mem_cons.mpr ⟨by simp [Node.HasEnd], hwell.ended⟩
  · rw [close_cons hrest]
    simp [Node.IsElement]

/-! ## Tokens -/

theorem WellFormed.place_startTag (h : b.WellFormed) {start : StartTag} {selfClosing : Bool}
    (htag : IsTagName start.tag)
    (hraw : (!selfClosing && !isVoid start.tag && isRawText start.tag) = false) :
    (b.place (.startTag start selfClosing)).WellFormed := by
  have hflush := h.flush
  simp only [Builder.place]
  split
  · exact hflush.add (.element (shaped_selfClosing htag _) (endsOwn_of_closing _ (by simp)) .nil
      (by simp)) (by simp)
  · rename_i hself
    split
    · rename_i hvoid
      exact hflush.add (.element (shaped_void htag _ hvoid) (endsOwn_of_closing _ (by simp)) .nil
        (by simp)) (by simp)
    · rename_i hvoid
      have hvoid : isVoid start.tag = false := by simpa using hvoid
      have hnot_raw : isRawText start.tag = false := by simpa [hself, hvoid] using hraw
      exact ⟨⟨⟨.nil, List.forall_mem_cons.mpr
        ⟨⟨htag, hvoid, hnot_raw, hflush.siblings, hflush.ended⟩, hflush.stack⟩⟩, by simp⟩, by simp⟩

theorem WellFormed.place_rawElement (h : b.WellFormed) {start : StartTag}
    (htag : IsTagName start.tag) (hvoid : isVoid start.tag = false)
    (hraw : isRawText start.tag = true) (content name trailing : Text) :
    (b.place (.rawElement start content name trailing)).WellFormed := by
  have hown (line : Nat) (children : List Node) :
      Element.EndsOwn ⟨start, line, .explicit name trailing⟩ children := by
    intro _ _ _ hnot_raw
    rw [hraw] at hnot_raw
    cases hnot_raw
  simp only [Builder.place]
  rcases rawChildren_cases content (b.flush.line + Text.lineBreaks start.render) with
    ⟨-, hnil⟩ | ⟨hcontent, htext⟩
  · rw [hnil]
    exact h.flush.add (.element (shaped_raw htag _ hvoid _ _ (.inl rfl)) (hown _ _) .nil
      (by simp)) (by simp)
  · rw [htext]
    exact h.flush.add (.element (shaped_raw htag _ hvoid _ _ (.inr ⟨_, _, rfl⟩)) (hown _ _)
      (.singleton _) (by simpa using Node.WellFormed.text hcontent)) (by simp)

theorem WellFormed.place (h : b.WellFormed) {t : Token}
    (ht : (∃ content, t = .text content) ∨ t.Formed) : (b.place t).WellFormed := by
  rcases ht with ⟨content, rfl⟩ | hform
  · exact h.addText content
  cases hform with
  | startTag hf _ hraw => exact h.place_startTag hf.name hraw
  | rawElement hf _ hvoid hraw _ _ _ => exact h.place_rawElement hf.name hvoid hraw _ _ _
  | @endTag name trailing _ _ =>
    simp only [Builder.place]
    rcases b.depthOf?_cases name with ⟨hnone, -⟩ | ⟨inner, top, outer, hstack, hdepth, hinner, htop⟩
    · rw [hnone]
      exact h.addText _
    · rw [hdepth]
      exact h.flush.closeNamed (by simpa using hstack) hinner htop trailing

theorem WellFormed.next (h : b.WellFormed) {t : Token}
    (ht : (∃ content, t = .text content) ∨ t.Formed) : (b.next t).WellFormed := by
  have hplace := h.place ht
  exact ⟨⟨⟨hplace.siblings, hplace.stack⟩, hplace.ended⟩, hplace.apart⟩

theorem WellFormed.foldl (h : b.WellFormed) {ts : List Token}
    (hts : ∀ t ∈ ts, (∃ content, t = .text content) ∨ t.Formed) :
    (ts.foldl Builder.next b).WellFormed := by
  induction ts generalizing b with
  | nil => exact h
  | cons t ts ih =>
    obtain ⟨ht, hts⟩ := List.forall_mem_cons.mp hts
    exact ih (h.next ht) hts

theorem WellFormed.finish (h : b.WellFormed) :
    b.finish.IsChain Node.MayPrecede ∧ ∀ n ∈ b.finish, n.WellFormed :=
  (h.flush.toEnding.closeUnclosed b.flush.stack.length).siblings.reverse

end Builder

namespace Document

theorem wellFormed_of_parse {source : String} {d : Document} (h : parse source = .ok d) :
    d.nodes.IsChain Node.MayPrecede ∧ ∀ n ∈ d.nodes, n.WellFormed := by
  obtain ⟨ts, hts, rfl⟩ := ofText_eq_ok_iff.mp h
  exact (Builder.WellFormed.empty.foldl (tokens_eq_ok_iff.mp hts).2.formed).finish

/-- Every node of a tree that is read has its form, and so has every row of siblings. -/
theorem shaped_of_parse {source : String} {d : Document} (h : parse source = .ok d)
    {siblings : List Node} (hlevel : Node.Level d.nodes siblings) :
    siblings.IsChain Node.MayPrecede ∧ ∀ n ∈ siblings, n.Shaped := by
  obtain ⟨hchain, hroots⟩ := wellFormed_of_parse h
  obtain ⟨hsiblings, hnodes⟩ := hlevel.wellFormed hchain hroots
  exact ⟨hsiblings, fun n hn => (hnodes n hn).shaped⟩

/-- The children of a paragraph: texts, an element of each kind, and one that nothing closes. -/
theorem shaped_of_parse_paragraph :
    ∃ d e children, parse "a<P>b<br><hr/><script>x</script>c<i>d</p>" = .ok d ∧
      .element e children ∈ d.nodes ∧ children.length = 6 ∧
      children.IsChain Node.MayPrecede ∧ ∀ n ∈ children, n.Shaped := by
  obtain ⟨d, hd, hany⟩ := exists_of_any "a<P>b<br><hr/><script>x</script>c<i>d</p>"
    (·.nodes.any (Node.isElementWith fun _ children => children.length = 6)) (by decide +kernel)
  obtain ⟨e, children, hmem, hlength⟩ := Node.exists_of_any_isElementWith hany
  exact ⟨d, e, children, hd, hmem, of_decide_eq_true hlength,
    shaped_of_parse hd (.children .roots hmem)⟩

/-- An end tag closes the innermost open element of its name. -/
theorem endsOwn_of_parse {source : String} {d : Document} (h : parse source = .ok d)
    {siblings children : List Node} (hlevel : Node.Level d.nodes siblings) {e : Element}
    (he : .element e children ∈ siblings) : e.EndsOwn children := by
  obtain ⟨hchain, hroots⟩ := wellFormed_of_parse h
  exact ((hlevel.wellFormed hchain hroots).2 _ he).endsOwn

/-- An end tag that ends two elements more, one within the other. -/
theorem endsOwn_of_parse_nested :
    ∃ d e children f, parse "<div><p><b>x</DIV>" = .ok d ∧ .element e children ∈ d.nodes ∧
      e.closing = .explicit "DIV".toList [] ∧ e.EndsOwn children ∧
      Dangling children f ∧ f.tag = ['b'] ∧ Text.sameIgnoringCase f.tag e.tag = false := by
  obtain ⟨d, hd, hany⟩ := exists_of_any "<div><p><b>x</DIV>"
    (·.nodes.any (Node.isElementWith fun e children =>
      e.closing = .explicit "DIV".toList [] && !isRawText e.tag &&
        children.any (Node.isElementWith fun g children =>
          g.closing = .unclosed &&
            children.any (Node.isElementWith fun f _ => f.closing = .unclosed ∧ f.tag = ['b']))))
    (by decide +kernel)
  obtain ⟨e, children, he, hp⟩ := Node.exists_of_any_isElementWith hany
  simp only [Bool.and_eq_true, decide_eq_true_eq, Bool.not_eq_true'] at hp
  obtain ⟨⟨hclosing, hraw⟩, hany⟩ := hp
  obtain ⟨g, _, hg, hp⟩ := Node.exists_of_any_isElementWith hany
  obtain ⟨hgclosing, hany⟩ := Bool.and_eq_true_iff.mp hp
  obtain ⟨f, _, hf, hp⟩ := Node.exists_of_any_isElementWith hany
  obtain ⟨hfclosing, htag⟩ := of_decide_eq_true hp
  have hown := endsOwn_of_parse hd .roots he
  have hdangling : Dangling children f :=
    .inside hg (of_decide_eq_true hgclosing) (.here hf hfclosing)
  exact ⟨d, e, children, f, hd, he, hclosing, hown, hdangling, htag,
    (hown _ _ hclosing hraw).2 f hdangling⟩

end Document

end Markup

end ExtensionAudit
