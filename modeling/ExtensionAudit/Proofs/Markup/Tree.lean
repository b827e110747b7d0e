import ExtensionAudit.Markup.Document
/-
  Laws of trees and of the builder that makes them: changing every element of a
  tree, what the builder's steps do to the open elements and to the pending text,
  and how the stack divides at the element that an end tag closes.
-/

namespace ExtensionAudit.Markup

namespace Node

theorem mapElementsAll_eq_map (f : Element → Element) (ns : List Node) :
    mapElementsAll f ns = ns.map (mapElements f) := by
  induction ns with
  | nil => rfl
  | cons n ns ih => simp [mapElementsAll, ih]

mutual

theorem mapElements_id (n : Node) : n.mapElements id = n := by
  cases n with
  | text => rfl
  | element e children => simp [mapElements, mapElementsAll_id children]

theorem mapElementsAll_id (ns : List Node) : mapElementsAll id ns = ns := by
  cases ns with
  | nil => rfl
  | cons n ns => simp [mapElementsAll, mapElements_id n, mapElementsAll_id ns]

end

mutual

theorem mapElements_comp (f g : Element → Element) (n : Node) :
    (n.mapElements f).mapElements g = n.mapElements (g ∘ f) := by
  cases n with
  | text => rfl
  | element e children => simp [mapElements, mapElementsAll_comp f g children]

theorem mapElementsAll_comp (f g : Element → Element) (ns : List Node) :
    mapElementsAll g (mapElementsAll f ns) = mapElementsAll (g ∘ f) ns := by
  cases ns with
  | nil => rfl
  | cons n ns => simp [mapElementsAll, mapElements_comp f g n, mapElementsAll_comp f g ns]

end

end Node

def OpenElement.isClosedBy (name : Text) (o : OpenElement) : Bool :=
  Text.sameIgnoringCase o.start.tag name

namespace Builder

/-- The start tag of the element that an end tag of this name closes. -/
def innermost? (b : Builder) (name : Text) : Option StartTag :=
  (b.stack.find? (·.isClosedBy name)).map (·.start)

/-! ## The content of raw text -/

theorem rawChildren_cases (content : Text) (line : Nat) :
    content = [] ∧ rawChildren content line = [] ∨
      content ≠ [] ∧ rawChildren content line = [.text content line] := by
  unfold rawChildren
  split
  · rename_i hcontent
    exact .inl ⟨List.isEmpty_iff.mp hcontent, rfl⟩
  · rename_i hcontent
    exact .inr ⟨by simpa using hcontent, rfl⟩

theorem renderAll_rawChildren (content : Text) (line : Nat) :
    Node.renderAll (rawChildren content line) = content := by
  rcases rawChildren_cases content line with ⟨rfl, hnil⟩ | ⟨-, htext⟩
  · rw [hnil, Node.renderAll]
  · simp [htext, Node.renderAll, Node.render]

/-! ## The pending text -/

@[simp] theorem flush_pending (b : Builder) : b.flush.pending = [] := by
  unfold flush
  split
  · rename_i h
    exact List.isEmpty_iff.mp h
  · rfl

@[simp] theorem close_pending (b : Builder) (c : Closing) : (b.close c).pending = b.pending := by
  unfold close
  split <;> rfl

@[simp] theorem closeUnclosed_pending (b : Builder) (n : Nat) :
    (b.closeUnclosed n).pending = b.pending := by
  induction n generalizing b with
  | zero => rfl
  | succ n ih => simp [closeUnclosed, ih]

/-! ## The open elements -/

@[simp] theorem flush_stack (b : Builder) : b.flush.stack = b.stack := by
  unfold flush
  split <;> rfl

@[simp] theorem close_stack (b : Builder) (c : Closing) : (b.close c).stack = b.stack.tail := by
  unfold close
  split <;> simp_all

@[simp] theorem closeUnclosed_stack (b : Builder) (n : Nat) :
    (b.closeUnclosed n).stack = b.stack.drop n := by
  induction n generalizing b with
  | zero => rfl
  | succ n ih => simp [closeUnclosed, ih]

/-- An end tag finds no element of its name, or the stack divides at the innermost one. -/
theorem depthOf?_cases (b : Builder) (name : Text) :
    (b.depthOf? name = none ∧ ∀ o ∈ b.stack, o.isClosedBy name = false) ∨
      ∃ inner top outer, b.stack = inner ++ top :: outer ∧
        b.depthOf? name = some inner.length ∧
        (∀ o ∈ inner, o.isClosedBy name = false) ∧ top.isClosedBy name = true := by
  cases hd : b.depthOf? name with
  | none =>
    left
    refine ⟨rfl, fun o ho => ?_⟩
    exact List.findIdx?_eq_none_iff.mp hd o ho
  | some d =>
    right
    obtain ⟨hlt, htop, hinner⟩ := List.findIdx?_eq_some_iff_getElem.mp hd
    refine ⟨b.stack.take d, b.stack[d], b.stack.drop (d + 1), ?_, ?_, ?_, htop⟩
    · rw [← List.drop_eq_getElem_cons hlt, List.take_append_drop]
    · rw [List.length_take, Nat.min_eq_left (Nat.le_of_lt hlt)]
    · intro o ho
      obtain ⟨i, hi, rfl⟩ := List.mem_take_iff_getElem.mp ho
      simpa [OpenElement.isClosedBy] using hinner i (by omega)

theorem innermost?_eq_none {b : Builder} {name : Text}
    (h : ∀ o ∈ b.stack, o.isClosedBy name = false) : b.innermost? name = none := by
  simp only [innermost?, Option.map_eq_none_iff, List.find?_eq_none]
  intro o ho
  simp [h o ho]

theorem innermost?_eq_some {b : Builder} {name : Text} {inner outer : List OpenElement}
    {top : OpenElement} (hs : b.stack = inner ++ top :: outer)
    (hinner : ∀ o ∈ inner, o.isClosedBy name = false) (htop : top.isClosedBy name = true) :
    b.innermost? name = some top.start := by
  have h : inner.find? (·.isClosedBy name) = none := by
    rw [List.find?_eq_none]
    intro o ho
    simp [hinner o ho]
  simp [innermost?, hs, List.find?_append, h, htop]

end Builder

end ExtensionAudit.Markup
