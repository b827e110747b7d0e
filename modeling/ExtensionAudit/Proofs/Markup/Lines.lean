import ExtensionAudit.Proofs.Markup.RoundTrip
/-
  Lines of nodes. A text becomes a node long after its first character was read, and
  an element once its end has been found, but each keeps the line that was reached
  when it began. So the lines of a tree count the line breaks in what is written
  before each node, from the first line of the source on.

  Main statements: `linedAll_build`, the nodes of a tree that is built carry the lines
  on which they begin, and `Document.line_of_mem_places`, which says so of every
  place of a template that was read.
-/

namespace ExtensionAudit.Markup

namespace Node

/-! ## Trees -/

mutual

/-- Whether a node that begins on `line`, and every node below it, carries its line. -/
def Lined (line : Nat) : Node → Prop
  | .text _ textLine => textLine = line
  | .element e children =>
    e.line = line ∧ LinedAll (line + Text.lineBreaks e.toStartTag.render) children

/-- Whether nodes of which the first begins on `line` carry their lines. -/
def LinedAll (line : Nat) : List Node → Prop
  | [] => True
  | n :: ns => n.Lined line ∧ LinedAll (line + Text.lineBreaks n.render) ns

end

theorem Lined.line_eq {line : Nat} {n : Node} (h : n.Lined line) : n.line = line := by
  cases n with
  | text => exact h
  | element => exact h.1

theorem linedAll_append {line : Nat} {ms ns : List Node} :
    LinedAll line (ms ++ ns) ↔
      LinedAll line ms ∧ LinedAll (line + Text.lineBreaks (renderAll ms)) ns := by
  induction ms generalizing line with
  | nil => simp [LinedAll, renderAll]
  | cons m ms ih =>
    simp only [List.cons_append, LinedAll, renderAll, ih, Text.lineBreaks_append, Nat.add_assoc,
      and_assoc]

/-! ## Places -/

mutual

/-- A node and the nodes below it in document order, each with all that is written before it. -/
def places (before : Text) : Node → List (Text × Node)
  | .text content line => [(before, .text content line)]
  | .element e children =>
    (before, .element e children) :: placesAll (before ++ e.toStartTag.render) children

/-- All nodes in document order, each with all that is written before it. -/
def placesAll (before : Text) : List Node → List (Text × Node)
  | [] => []
  | n :: ns => n.places before ++ placesAll (before ++ n.render) ns

end

mutual

theorem line_of_mem_places {first : Nat} {before : Text} {n : Node}
    (h : n.Lined (first + Text.lineBreaks before)) :
    ∀ p ∈ n.places before, p.2.line = first + Text.lineBreaks p.1 := by
  cases n with
  | text content line => simpa [places] using h.line_eq
  | element e children =>
    have hchildren : LinedAll (first + Text.lineBreaks (before ++ e.toStartTag.render)) children := by
      rw [Text.lineBreaks_append, ← Nat.add_assoc]
      exact h.2
    exact List.forall_mem_cons.mpr ⟨h.line_eq, line_of_mem_placesAll hchildren⟩

theorem line_of_mem_placesAll {first : Nat} {before : Text} {ns : List Node}
    (h : LinedAll (first + Text.lineBreaks before) ns) :
    ∀ p ∈ placesAll before ns, p.2.line = first + Text.lineBreaks p.1 := by
  cases ns with
  | nil => simp [placesAll]
  | cons n ns =>
    have hrest : LinedAll (first + Text.lineBreaks (before ++ n.render)) ns := by
      rw [Text.lineBreaks_append, ← Nat.add_assoc]
      exact h.2
    exact List.forall_mem_append.mpr ⟨line_of_mem_places h.1, line_of_mem_placesAll hrest⟩

end

mutual

theorem exists_append_of_mem_places {before : Text} {n : Node} :
    ∀ p ∈ n.places before, ∃ after, before ++ n.render = p.1 ++ (p.2.render ++ after) := by
  cases n with
  | text content line => simp [places, render]
  | element e children =>
    refine List.forall_mem_cons.mpr ⟨⟨[], by simp⟩, fun p hp => ?_⟩
    obtain ⟨after, hafter⟩ := exists_append_of_mem_placesAll p hp
    exact ⟨after ++ e.closing.render, by simp [render, ← List.append_assoc, ← hafter]⟩

/-- What is written before a node, the node and what follows are all that is written. -/
theorem exists_append_of_mem_placesAll {before : Text} {ns : List Node} :
    ∀ p ∈ placesAll before ns, ∃ after, before ++ renderAll ns = p.1 ++ (p.2.render ++ after) := by
  cases ns with
  | nil => simp [placesAll]
  | cons n ns =>
    refine List.forall_mem_append.mpr ⟨fun p hp => ?_, fun p hp => ?_⟩
    · obtain ⟨after, hafter⟩ := exists_append_of_mem_places p hp
      exact ⟨after ++ renderAll ns, by simp [renderAll, ← List.append_assoc, ← hafter]⟩
    · obtain ⟨after, hafter⟩ := exists_append_of_mem_placesAll p hp
      exact ⟨after, by rw [← hafter]; simp [renderAll]⟩

end

/-- The element that a node is, without its children. -/
def element? : Node → Option Element
  | .text _ _ => none
  | .element e _ => some e

mutual

theorem filterMap_places (before : Text) (n : Node) :
    (n.places before).filterMap (·.2.element?) = n.elements := by
  cases n with
  | text => rfl
  | element e children =>
    rw [places, elements, List.filterMap_cons,
      filterMap_placesAll (before ++ e.toStartTag.render) children]
    rfl

theorem filterMap_placesAll (before : Text) (ns : List Node) :
    (placesAll before ns).filterMap (·.2.element?) = elementsAll ns := by
  cases ns with
  | nil => rfl
  | cons n ns =>
    simp [placesAll, elementsAll, filterMap_places before n,
      filterMap_placesAll (before ++ n.render) ns]

end

end Node

/-! ## The tree under construction -/

namespace Builder

open Node (LinedAll renderAll)

/-- The line on which the content of the innermost open element begins. -/
def innerLine : List OpenElement → Nat
  | [] => 1
  | top :: _ => top.line + Text.lineBreaks top.start.render

/-- Whether open elements, and the nodes in front of them, carry their lines. -/
def OpenLined : List OpenElement → Prop
  | [] => True
  | top :: outer =>
    OpenLined outer ∧ LinedAll (innerLine outer) top.before.reverse ∧
      top.line = innerLine outer + Text.lineBreaks (renderAll top.before.reverse)

def textLine (b : Builder) : Nat :=
  innerLine b.stack + Text.lineBreaks (renderAll b.siblings.reverse)

/-- The line on which all that a builder holds ends. -/
def lastLine (b : Builder) : Nat := b.textLine + Text.lineBreaks b.pending.reverse

/-- A tree under construction whose nodes, open elements and text carry their lines. -/
structure Lined (b : Builder) : Prop where
  stack : OpenLined b.stack
  siblings : LinedAll (innerLine b.stack) b.siblings.reverse
  pending : b.pending ≠ [] → b.pendingLine = b.textLine

variable {b : Builder}

theorem Lined.empty : empty.Lined where
  stack := trivial
  siblings := trivial
  pending h := absurd rfl h

theorem lastLine_of_pending (h : b.pending = []) : b.lastLine = b.textLine := by
  simp [lastLine, h]

/-! ### Text -/

theorem Lined.addText (h : b.Lined) (hline : b.line = b.lastLine) (content : Text) :
    (b.addText content).Lined where
  stack := h.stack
  siblings := h.siblings
  pending _ := by
    have htext : (b.addText content).textLine = b.textLine := rfl
    rw [htext]
    cases hp : b.pending with
    | nil => simp [Builder.addText, hp, hline, lastLine]
    | cons c pending => simpa [Builder.addText, hp] using h.pending (by simp [hp])

theorem lastLine_addText (b : Builder) (content : Text) :
    (b.addText content).lastLine = b.lastLine + Text.lineBreaks content := by
  have htext : (b.addText content).textLine = b.textLine := rfl
  rw [lastLine, htext, lastLine]
  simp only [Builder.addText, List.reverse_append, List.reverse_reverse, Text.lineBreaks_append,
    Nat.add_assoc]

@[simp] theorem flush_line (b : Builder) : b.flush.line = b.line := by
  unfold flush
  split <;> rfl

theorem lastLine_flush (b : Builder) : b.flush.lastLine = b.lastLine := by
  unfold flush
  split
  · rfl
  · simp [lastLine, textLine, Node.renderAll_append, renderAll, Node.render,
      Text.lineBreaks_append, Nat.add_assoc]

theorem Lined.flush (h : b.Lined) : b.flush.Lined := by
  unfold Builder.flush
  split
  · exact h
  · rename_i hpending
    have hline : b.pendingLine = b.textLine := h.pending (by simpa using hpending)
    refine ⟨h.stack, ?_, fun hp => absurd rfl hp⟩
    rw [List.reverse_cons, Node.linedAll_append]
    exact ⟨h.siblings, hline, trivial⟩

/-! ### Elements -/

theorem Lined.add (h : b.Lined) (hpending : b.pending = []) {n : Node}
    (hn : n.Lined b.lastLine) : (b.add n).Lined where
  stack := h.stack
  siblings := by
    rw [lastLine_of_pending hpending] at hn
    simp only [Builder.add, List.reverse_cons, Node.linedAll_append]
    exact ⟨h.siblings, hn, trivial⟩
  pending hp := absurd hpending hp

theorem lastLine_add (hpending : b.pending = []) (n : Node) :
    (b.add n).lastLine = b.lastLine + Text.lineBreaks n.render := by
  simp [lastLine, textLine, Builder.add, hpending, Node.renderAll_append, renderAll,
    Text.lineBreaks_append, Nat.add_assoc]

/-- An element that ends begins on the line that its start tag has been read on. -/
theorem Lined.close (h : b.Lined) (hpending : b.pending = []) (closing : Closing) :
    (b.close closing).Lined := by
  cases hs : b.stack with
  | nil =>
    rw [Builder.close, hs]
    exact h
  | cons top outer =>
    have hstack := h.stack
    have hchildren := h.siblings
    rw [hs] at hstack hchildren
    obtain ⟨houter, hbefore, hline⟩ := hstack
    rw [innerLine, hline] at hchildren
    rw [Builder.close, hs]
    refine ⟨houter, ?_, fun hp => absurd hpending hp⟩
    rw [List.reverse_cons, Node.linedAll_append]
    exact ⟨hbefore, ⟨hline, hchildren⟩, trivial⟩

theorem lastLine_close (h : b.Lined) (hpending : b.pending = []) {top : OpenElement}
    {outer : List OpenElement} (hs : b.stack = top :: outer) (closing : Closing) :
    (b.close closing).lastLine = b.lastLine + Text.lineBreaks closing.render := by
  have hstack := h.stack
  rw [hs] at hstack
  obtain ⟨-, -, hline⟩ := hstack
  rw [Builder.close, hs]
  simp [lastLine, textLine, hs, innerLine, hline, hpending, Node.renderAll_append, renderAll,
    Node.render, Text.lineBreaks_append, Nat.add_assoc]

theorem Lined.closeUnclosed (h : b.Lined) (hpending : b.pending = []) (n : Nat) :
    (b.closeUnclosed n).Lined ∧ (b.closeUnclosed n).lastLine = b.lastLine := by
  induction n generalizing b with
  | zero => exact ⟨h, rfl⟩
  | succ n ih =>
    obtain ⟨hlined, hlast⟩ := ih (h.close hpending .unclosed) (by rw [close_pending, hpending])
    refine ⟨hlined, hlast.trans ?_⟩
    cases hs : b.stack with
    | nil => rw [Builder.close, hs]
    | cons top outer => exact lastLine_close h hpending hs .unclosed

/-! ### Tokens -/

theorem Lined.place_startTag (h : b.Lined) (hline : b.line = b.lastLine) (start : StartTag)
    (selfClosing : Bool) :
    (b.place (.startTag start selfClosing)).Lined ∧
      (b.place (.startTag start selfClosing)).lastLine =
        b.lastLine + Text.lineBreaks start.render := by
  have hflush := h.flush
  have hpending := flush_pending b
  have hreached : b.flush.line = b.flush.lastLine := by rw [flush_line, lastLine_flush, hline]
  have hadd (closing : Closing) (hclosing : closing.render = []) :
      (b.flush.add (.element ⟨start, b.flush.line, closing⟩ [])).Lined ∧
        (b.flush.add (.element ⟨start, b.flush.line, closing⟩ [])).lastLine =
          b.lastLine + Text.lineBreaks start.render := by
    refine ⟨hflush.add hpending ⟨hreached, trivial⟩, ?_⟩
    simp [lastLine_add hpending, lastLine_flush, Node.render, Node.renderAll, hclosing]
  simp only [place]
  split
  · exact hadd .selfClosing rfl
  · split
    · exact hadd .void rfl
    · rw [hreached, lastLine_of_pending hpending]
      have hstack : OpenLined (⟨start, b.flush.textLine, b.flush.siblings⟩ :: b.flush.stack) :=
        ⟨hflush.stack, hflush.siblings, rfl⟩
      have hlast : b.lastLine = b.flush.textLine := by
        rw [← lastLine_flush, lastLine_of_pending hpending]
      refine ⟨⟨hstack, trivial, fun hp => absurd hpending hp⟩, ?_⟩
      rw [hlast]
      simp [lastLine, textLine, innerLine, renderAll]

theorem Lined.place_rawElement (h : b.Lined) (hline : b.line = b.lastLine) (start : StartTag)
    (content name trailing : Text) :
    (b.place (.rawElement start content name trailing)).Lined ∧
      (b.place (.rawElement start content name trailing)).lastLine =
        b.lastLine + Text.lineBreaks (Token.rawElement start content name trailing).render := by
  have hpending := flush_pending b
  have hreached : b.flush.line = b.flush.lastLine := by rw [flush_line, lastLine_flush, hline]
  have hchildren (line : Nat) : LinedAll line (rawChildren content line) := by
    rcases rawChildren_cases content line with ⟨-, hnil⟩ | ⟨-, htext⟩
    · rw [hnil]
      trivial
    · rw [htext]
      exact ⟨rfl, trivial⟩
  simp only [place]
  refine ⟨h.flush.add hpending ⟨hreached, ?_⟩, ?_⟩
  · rw [← hreached]
    exact hchildren _
  · rw [lastLine_add hpending, lastLine_flush, Node.render, renderAll_rawChildren]
    rfl

/-- A token that begins on the line reached leaves all nodes with their lines, and ends as many
lines further as it has line breaks. -/
theorem Lined.place (h : b.Lined) (hline : b.line = b.lastLine) (t : Token) :
    (b.place t).Lined ∧ (b.place t).lastLine = b.lastLine + Text.lineBreaks t.render := by
  cases t with
  | text content => exact ⟨h.addText hline content, lastLine_addText b content⟩
  | startTag start selfClosing => exact h.place_startTag hline start selfClosing
  | rawElement start content name trailing =>
    exact h.place_rawElement hline start content name trailing
  | endTag name trailing =>
    simp only [Builder.place]
    rcases b.depthOf?_cases name with ⟨hd, -⟩ | ⟨inner, top, outer, hs, hd, -, -⟩
    · rw [hd]
      exact ⟨h.addText hline _, lastLine_addText b _⟩
    · rw [hd]
      have hpending : (b.flush.closeUnclosed inner.length).pending = [] := by simp
      have hstack : (b.flush.closeUnclosed inner.length).stack = top :: outer := by simp [hs]
      obtain ⟨hlined, hlast⟩ := h.flush.closeUnclosed (flush_pending b) inner.length
      refine ⟨hlined.close hpending _, ?_⟩
      rw [lastLine_close hlined hpending hstack, hlast, lastLine_flush]
      rfl

theorem Lined.foldl (h : b.Lined) (hline : b.line = b.lastLine) (ts : List Token) :
    (ts.foldl next b).Lined := by
  induction ts generalizing b with
  | nil => exact h
  | cons t ts ih =>
    obtain ⟨hplace, hlast⟩ := h.place hline t
    refine ih ⟨hplace.stack, hplace.siblings, hplace.pending⟩ ?_
    show b.line + Text.lineBreaks t.render = (b.place t).lastLine
    rw [hlast, hline]

end Builder

/-- The nodes of a tree carry the lines on which they begin, counted from one. -/
theorem linedAll_build (ts : List Token) : Node.LinedAll 1 (build ts) := by
  have hfold : (ts.foldl Builder.next .empty).Lined := Builder.Lined.empty.foldl rfl ts
  have hclosed := (hfold.flush.closeUnclosed (Builder.flush_pending _)
    (ts.foldl Builder.next .empty).flush.stack.length).1
  have hsiblings := hclosed.siblings
  rw [Builder.closeUnclosed_stack, List.drop_length] at hsiblings
  exact hsiblings

/-- The place of every node of a template in its source: the node stands behind what is written
before it, and carries the line that is reached there. -/
theorem Document.line_of_mem_places {s : Text} {d : Document} (h : ofText s = .ok d) :
    ∀ p ∈ Node.placesAll [] d.nodes,
      p.2.line = 1 + Text.lineBreaks p.1 ∧ ∃ after, s = p.1 ++ (p.2.render ++ after) := by
  obtain ⟨ts, -, rfl⟩ := ofText_eq_ok_iff.mp h
  intro p hp
  obtain ⟨after, hafter⟩ := Node.exists_append_of_mem_placesAll p hp
  refine ⟨Node.line_of_mem_placesAll (linedAll_build ts) p hp, after, ?_⟩
  rw [← hafter, ← toText_of_ofText h]
  rfl

end ExtensionAudit.Markup
