import ExtensionAudit.Proofs.Markup.Rereading
/-
  Building the tree of edited tokens. An edit of all that a builder holds goes
  through each of its steps, if the edit moves no line and lets every end tag
  find the element that it found before.

  Main statements: `build_tokens`, the tree of the edited tokens is the edited tree,
  and `Document.ofText_written`, so it is read again off its text.
-/

namespace ExtensionAudit.Markup

def Token.endName? : Token → Option Text
  | .rawElement _ _ name _ => some name
  | .endTag name _ => some name
  | _ => none

/-- An edit of these start tags that these end tags follow: it moves no line, void elements stay
void, and an end tag that found an element finds it again and no other. -/
structure TagEdit.Followed (E : TagEdit) (starts : StartTag → Prop) (names : Text → Prop) :
    Prop where
  start_lines : ∀ t, starts t → Text.lineBreaks (E.start t).render = Text.lineBreaks t.render
  end_lines : ∀ t name, starts t → names name →
    Text.lineBreaks (E.endName t name) = Text.lineBreaks name
  void : ∀ t, starts t → isVoid (E.start t).tag = isVoid t.tag
  unmatched : ∀ t name, starts t → names name → Text.sameIgnoringCase t.tag name = false →
    Text.sameIgnoringCase (E.start t).tag name = false
  passed : ∀ t top name, starts t → starts top → names name →
    Text.sameIgnoringCase t.tag name = false → Text.sameIgnoringCase top.tag name = true →
    Text.sameIgnoringCase (E.start t).tag (E.endName top name) = false
  matched : ∀ top name, starts top → names name → Text.sameIgnoringCase top.tag name = true →
    Text.sameIgnoringCase (E.start top).tag (E.endName top name) = true

def OpenElement.edit (E : TagEdit) (o : OpenElement) : OpenElement :=
  ⟨E.start o.start, o.line, Node.mapElementsAll E.apply o.before⟩

namespace Builder

variable (E : TagEdit)

/-- A tree under construction after an edit of all that it holds. -/
def edit (b : Builder) : Builder :=
  { b with
    stack := b.stack.map (·.edit E)
    siblings := Node.mapElementsAll E.apply b.siblings }

theorem addText_edit (b : Builder) (content : Text) :
    (b.edit E).addText content = (b.addText content).edit E := rfl

theorem flush_edit (b : Builder) : (b.edit E).flush = b.flush.edit E := by
  unfold flush
  by_cases h : b.pending.isEmpty = true
  · rw [if_pos h, if_pos (show (b.edit E).pending.isEmpty = true from h)]
  · rw [if_neg h, if_neg (show ¬(b.edit E).pending.isEmpty = true from h)]
    rfl

theorem add_edit (b : Builder) (n : Node) :
    (b.edit E).add (n.mapElements E.apply) = (b.add n).edit E := rfl

theorem close_edit {b : Builder} {top : OpenElement} {outer : List OpenElement}
    (hs : b.stack = top :: outer) (c : Closing) :
    (b.edit E).close (E.closing top.start c) = (b.close c).edit E := by
  have hs' : (b.edit E).stack = top.edit E :: outer.map (·.edit E) := by simp [edit, hs]
  unfold close
  rw [hs, hs']
  simp only [edit, Node.mapElementsAll_eq_map, List.map_cons, List.map_reverse, Node.mapElements,
    OpenElement.edit]
  rfl

theorem closeUnclosed_edit (b : Builder) (n : Nat) :
    (b.edit E).closeUnclosed n = (b.closeUnclosed n).edit E := by
  induction n generalizing b with
  | zero => rfl
  | succ n ih =>
    have hclose : (b.edit E).close .unclosed = (b.close .unclosed).edit E := by
      cases hs : b.stack with
      | nil => simp [close, edit, hs]
      | cons top outer => exact close_edit E hs .unclosed
    rw [closeUnclosed, hclose, ih, closeUnclosed]

theorem finish_edit (b : Builder) :
    (b.edit E).finish = Node.mapElementsAll E.apply b.finish := by
  have hlen (b : Builder) : (b.edit E).stack.length = b.stack.length := by simp [edit]
  simp only [finish, flush_edit, hlen, closeUnclosed_edit]
  simp [edit, Node.mapElementsAll_eq_map]

variable {E} {starts : StartTag → Prop} {names : Text → Prop}

theorem depthOf?_edit_none {b : Builder} {name : Text}
    (h : ∀ o ∈ b.stack, (o.edit E).isClosedBy name = false) :
    (b.edit E).depthOf? name = none := by
  rw [depthOf?, List.findIdx?_eq_none_iff]
  intro o' ho'
  obtain ⟨o, ho, rfl⟩ := List.mem_map.mp ho'
  exact h o ho

theorem depthOf?_edit_some {b : Builder} {name : Text} {inner outer : List OpenElement}
    {top : OpenElement} (hs : b.stack = inner ++ top :: outer)
    (hinner : ∀ o ∈ inner, (o.edit E).isClosedBy name = false)
    (htop : (top.edit E).isClosedBy name = true) :
    (b.edit E).depthOf? name = some inner.length := by
  have hnone : (inner.map (·.edit E)).findIdx? (·.isClosedBy name) = none := by
    rw [List.findIdx?_eq_none_iff]
    intro o' ho'
    obtain ⟨o, ho, rfl⟩ := List.mem_map.mp ho'
    exact hinner o ho
  show ((b.edit E).stack.findIdx? (·.isClosedBy name)) = _
  simp [edit, hs, List.findIdx?_append, hnone, htop, List.findIdx?_cons]

/-- Putting an edited token into an edited tree is editing the tree with the token in it. -/
theorem place_edit (hE : E.Followed starts names) {b : Builder} {t : Token}
    (hstack : ∀ o ∈ b.stack, starts o.start) (hstart : ∀ s, t.start? = some s → starts s)
    (hname : ∀ n, t.endName? = some n → names n) :
    (b.edit E).place (E.token b t) = (b.place t).edit E := by
  cases t with
  | text content => rfl
  | startTag start selfClosing =>
    have hvoid := hE.void start (hstart start rfl)
    simp only [place, TagEdit.token, flush_edit, hvoid]
    split
    · exact add_edit E b.flush (.element ⟨start, b.flush.line, .selfClosing⟩ [])
    · split
      · exact add_edit E b.flush (.element ⟨start, b.flush.line, .void⟩ [])
      · simp [edit, OpenElement.edit, Node.mapElementsAll]
  | rawElement start content name trailing =>
    have hlines := hE.start_lines start (hstart start rfl)
    -- what stands in a raw element is text, which no edit touches
    have hchildren (line : Nat) : Node.mapElementsAll E.apply (rawChildren content line) =
        rawChildren content line := by
      rcases rawChildren_cases content line with ⟨-, hnil⟩ | ⟨-, htext⟩
      · rw [hnil, Node.mapElementsAll]
      · simp [htext, Node.mapElementsAll, Node.mapElements]
    simp only [place, TagEdit.token, flush_edit, hlines]
    rw [← add_edit, Node.mapElements, hchildren]
    rfl
  | endTag name trailing =>
    have hname := hname name rfl
    rcases b.depthOf?_cases name with ⟨hd, hno⟩ | ⟨inner, top, outer, hs, hd, hinner, htop⟩
    · -- an end tag that closes nothing is text, and stays text
      have hd' : (b.edit E).depthOf? name = none := depthOf?_edit_none fun o ho =>
        hE.unmatched _ _ (hstack o ho) hname (hno o ho)
      simp only [place, TagEdit.token, innermost?_eq_none hno, hd, hd']
      exact addText_edit E b _
    · -- the elements inside `top` are passed before and after the edit
      have hstart : starts top.start := hstack top (by simp [hs])
      have hpassed (o : OpenElement) (ho : o ∈ inner) :
          (o.edit E).isClosedBy (E.endName top.start name) = false :=
        hE.passed _ _ _ (hstack o (by simp [hs, ho])) hstart hname (hinner o ho) htop
      have hmatched : (top.edit E).isClosedBy (E.endName top.start name) = true :=
        hE.matched _ _ hstart hname htop
      have hd' := depthOf?_edit_some hs hpassed hmatched
      have hstop : (b.flush.closeUnclosed inner.length).stack = top :: outer := by simp [hs]
      simp only [place, TagEdit.token, innermost?_eq_some hs hinner htop, hd, hd', flush_edit,
        closeUnclosed_edit]
      exact close_edit E hstop (.explicit name trailing)

theorem lineBreaks_token (hE : E.Followed starts names) {b : Builder} {t : Token}
    (hstack : ∀ o ∈ b.stack, starts o.start) (hstart : ∀ s, t.start? = some s → starts s)
    (hname : ∀ n, t.endName? = some n → names n) :
    Text.lineBreaks (E.token b t).render = Text.lineBreaks t.render := by
  have hclosing (s : StartTag) (name trailing : Text) (hs : starts s) (hn : names name) :
      Text.lineBreaks (Closing.explicit (E.endName s name) trailing).render =
        Text.lineBreaks (Closing.explicit name trailing).render := by
    have h := hE.end_lines s name hs hn
    have hsplit (n : Text) : (Closing.explicit n trailing).render =
        ['<', '/'] ++ (n ++ (trailing ++ ['>'])) := by simp [Closing.render]
    simp only [hsplit, Text.lineBreaks_append, h]
  cases t with
  | text content => rfl
  | startTag start selfClosing => exact hE.start_lines start (hstart start rfl)
  | rawElement start content name trailing =>
    have hs := hstart start rfl
    simp only [TagEdit.token, Token.render, Text.lineBreaks_append, hE.start_lines start hs,
      hclosing start name trailing hs (hname name rfl)]
  | endTag name trailing =>
    rcases b.depthOf?_cases name with ⟨-, hno⟩ | ⟨inner, top, outer, hs, -, hinner, htop⟩
    · simp only [TagEdit.token, innermost?_eq_none hno]
    · simp only [TagEdit.token, innermost?_eq_some hs hinner htop]
      exact hclosing _ _ _ (hstack top (by simp [hs])) (hname name rfl)

theorem next_edit (hE : E.Followed starts names) {b : Builder} {t : Token}
    (hstack : ∀ o ∈ b.stack, starts o.start) (hstart : ∀ s, t.start? = some s → starts s)
    (hname : ∀ n, t.endName? = some n → names n) :
    (b.edit E).next (E.token b t) = (b.next t).edit E := by
  have hplace := place_edit hE hstack hstart hname
  have hlines := lineBreaks_token hE hstack hstart hname
  simp only [next, hplace, hlines]
  rfl

theorem mem_next_stack {b : Builder} {t : Token} {o : OpenElement} (h : o ∈ (b.next t).stack) :
    o ∈ b.stack ∨ t.start? = some o.start := by
  have hstack : (b.next t).stack = (b.place t).stack := rfl
  rw [hstack] at h
  cases t with
  | text content => exact .inl h
  | startTag start selfClosing =>
    simp only [place] at h
    split at h
    · exact .inl (by simpa [add] using h)
    · split at h
      · exact .inl (by simpa [add] using h)
      · rcases List.mem_cons.mp h with rfl | h
        · exact .inr rfl
        · exact .inl (by simpa using h)
  | rawElement start content name trailing => exact .inl (by simpa [place, add] using h)
  | endTag name trailing =>
    simp only [place] at h
    split at h
    · exact .inl h
    · simp only [close_stack, closeUnclosed_stack, flush_stack, List.tail_drop] at h
      exact .inl (List.mem_of_mem_drop h)

theorem foldl_edit (hE : E.Followed starts names) {b : Builder} {ts : List Token}
    (hstack : ∀ o ∈ b.stack, starts o.start)
    (hstart : ∀ s ∈ ts.filterMap Token.start?, starts s)
    (hname : ∀ n ∈ ts.filterMap Token.endName?, names n) :
    (E.tokens b ts).foldl next (b.edit E) = (ts.foldl next b).edit E := by
  induction ts generalizing b with
  | nil => rfl
  | cons t ts ih =>
    have hs (s : StartTag) (h : t.start? = some s) : starts s :=
      hstart s (List.mem_filterMap.mpr ⟨t, List.mem_cons_self, h⟩)
    have hn (n : Text) (h : t.endName? = some n) : names n :=
      hname n (List.mem_filterMap.mpr ⟨t, List.mem_cons_self, h⟩)
    have hrest {α : Type} {f : Token → Option α} {x : α} (h : x ∈ ts.filterMap f) :
        x ∈ (t :: ts).filterMap f := by
      obtain ⟨u, hu, hx⟩ := List.mem_filterMap.mp h
      exact List.mem_filterMap.mpr ⟨u, List.mem_cons_of_mem t hu, hx⟩
    rw [TagEdit.tokens, List.foldl_cons, List.foldl_cons, next_edit hE hstack hs hn]
    -- every open element came from a start tag of the list
    refine ih (fun o ho => ?_) (fun s h => hstart s (hrest h)) (fun n h => hname n (hrest h))
    rcases mem_next_stack ho with ho | ho
    · exact hstack o ho
    · exact hs o.start ho

end Builder

/-- The tree of the edited tokens is the edited tree. -/
theorem build_tokens {E : TagEdit} {starts : StartTag → Prop} {names : Text → Prop}
    (hE : E.Followed starts names) {ts : List Token}
    (hstart : ∀ s ∈ ts.filterMap Token.start?, starts s)
    (hname : ∀ n ∈ ts.filterMap Token.endName?, names n) :
    build (E.tokens .empty ts) = Node.mapElementsAll E.apply (build ts) := by
  have hempty : Builder.empty.edit E = .empty := rfl
  have hfold := Builder.foldl_edit hE (b := .empty) (by simp [Builder.empty]) hstart hname
  rw [hempty] at hfold
  rw [build, hfold, Builder.finish_edit, build]

/-- The text of an edited tree is read as that tree. -/
theorem Document.ofText_written {E : TagEdit} {starts : StartTag → Prop} {names : Text → Prop}
    (hlawful : E.Lawful) (hfollowed : E.Followed starts names) {s : Text} {ts : List Token}
    (h : tokens s = .ok ts)
    (hapart : ∀ t ∈ ts.filterMap Token.start?, (E.start t).keptApart = true)
    (hstart : ∀ t ∈ ts.filterMap Token.start?, starts t)
    (hname : ∀ n ∈ ts.filterMap Token.endName?, names n) :
    ofText (toText ⟨Node.mapElementsAll E.apply (build ts)⟩) =
      .ok ⟨Node.mapElementsAll E.apply (build ts)⟩ := by
  rw [toText, renderAll_apply_build, ofText, hlawful.tokens_written h hapart]
  simp only [build_tokens hfollowed hstart hname]

end ExtensionAudit.Markup
