import ExtensionAudit.Proofs.Markup.Rereading
/-
  Edits of one element. The element at a position in document order has its start
  tag in the token that begins with the start tag of this number. An edit that
  changes the start tag alone is written between the tokens in front of it and what
  stands behind the tag, and these tokens are read again: a text stays in front of a
  `<`.

  Main statements: `Document.exists_around`, the text of a template before and after
  such an edit, and `Document.rereads_element`, the edited tag is read if its parts
  have their forms and are kept apart.
-/

namespace ExtensionAudit.Markup

/-! ## Start tags as marks in a text -/

/-- The text of a template in which the start tags are marks. -/
def Sweep.marked : Sweep (Char ⊕ StartTag) where
  text content := content.map .inl
  opening t := [.inr t]
  ending _ name trailing := (Closing.explicit name trailing).render.map .inl
  text_append _ _ := List.map_append

def markText : Char ⊕ StartTag → Text
  | .inl c => [c]
  | .inr t => t.render

/-- Changes the start tag of a number; the number left over counts the start tags still to pass when
there are too few. -/
def modifyMark (g : StartTag → StartTag) :
    List (Char ⊕ StartTag) → Nat → List (Char ⊕ StartTag) × Option Nat
  | [], i => ([], some i)
  | .inl c :: ms, i =>
    let (ms, left) := modifyMark g ms i
    (.inl c :: ms, left)
  | .inr t :: ms, 0 => (.inr (g t) :: ms, none)
  | .inr t :: ms, i + 1 =>
    let (ms, left) := modifyMark g ms i
    (.inr t :: ms, left)

section Marks

variable {g : StartTag → StartTag}

theorem modifyMark_append (ms ms' : List (Char ⊕ StartTag)) (i : Nat) :
    modifyMark g (ms ++ ms') i = match modifyMark g ms i with
      | (ms, none) => (ms ++ ms', none)
      | (ms, some left) => (ms ++ (modifyMark g ms' left).1, (modifyMark g ms' left).2) := by
  fun_induction modifyMark g ms i with
  | case1 => rfl
  | case2 i c ms ms₁ left hms ih =>
    rw [List.cons_append, modifyMark, ih, hms]
    cases left <;> rfl
  | case3 => rfl
  | case4 i t ms ms₁ left hms ih =>
    rw [List.cons_append, modifyMark, ih, hms]
    cases left <;> rfl

theorem modifyMark_append_done {ms ms₁ : List (Char ⊕ StartTag)} {i : Nat}
    (h : modifyMark g ms i = (ms₁, none)) (ms' : List (Char ⊕ StartTag)) :
    modifyMark g (ms ++ ms') i = (ms₁ ++ ms', none) := by
  rw [modifyMark_append, h]

theorem modifyMark_append_left {ms ms₁ : List (Char ⊕ StartTag)} {i left : Nat}
    (h : modifyMark g ms i = (ms₁, some left)) (ms' : List (Char ⊕ StartTag)) :
    modifyMark g (ms ++ ms') i =
      (ms₁ ++ (modifyMark g ms' left).1, (modifyMark g ms' left).2) := by
  rw [modifyMark_append, h]

theorem modifyMark_text (s : Text) (i : Nat) :
    modifyMark g (s.map .inl) i = (s.map .inl, some i) := by
  induction s with
  | nil => rfl
  | cons c s ih => rw [List.map_cons, modifyMark, ih]

theorem flatMap_markText (s : Text) : (s.map .inl).flatMap markText = s := by
  induction s with
  | nil => rfl
  | cons c s ih => rw [List.map_cons, List.flatMap_cons, ih, markText, List.singleton_append]

/-! ### Trees -/

theorem closing_marked (t : StartTag) (c : Closing) :
    Sweep.marked.closing t c = c.render.map .inl := by
  cases c <;> rfl

mutual

theorem ofNode_markText (n : Node) : (Sweep.marked.ofNode n).flatMap markText = n.render := by
  cases n with
  | text content line => exact flatMap_markText content
  | element e children =>
    rw [Sweep.ofNode, closing_marked, List.flatMap_append, List.flatMap_append,
      ofNodes_markText children, flatMap_markText, Node.render]
    simp [Sweep.marked, markText]

theorem ofNodes_markText (ns : List Node) :
    (Sweep.marked.ofNodes ns).flatMap markText = Node.renderAll ns := by
  cases ns with
  | nil => simp [Node.renderAll]
  | cons n ns =>
    rw [Sweep.ofNodes_cons, List.flatMap_append, ofNode_markText n, ofNodes_markText ns,
      Node.renderAll]

end

/-- Whether a change of an element is one of its start tag alone. -/
def ChangesStart (f : Element → Element) (g : StartTag → StartTag) : Prop :=
  ∀ e, (f e).toStartTag = g e.toStartTag ∧ (f e).closing = e.closing

mutual

theorem modifyMark_ofNode {f : Element → Element} (hf : ChangesStart f g) (n : Node) (i : Nat) :
    modifyMark g (Sweep.marked.ofNode n) i =
      (Sweep.marked.ofNode (n.modifyElement f i).1, (n.modifyElement f i).2) := by
  cases n with
  | text content line => exact modifyMark_text content i
  | element e children =>
    cases i with
    | zero =>
      simp only [Node.modifyElement, Sweep.ofNode, closing_marked, (hf e).1, (hf e).2]
      rfl
    | succ i =>
      have hcons (children : List Node) : Sweep.marked.ofNode (.element e children) =
          .inr e.toStartTag :: (Sweep.marked.ofNodes children ++ e.closing.render.map .inl) := by
        rw [Sweep.ofNode, closing_marked]
        rfl
      have hchildren := modifyMark_ofNodes hf children i
      simp only [hcons, modifyMark, Node.modifyElement]
      cases hleft : (Node.modifyElementAll f children i).2 with
      | none =>
        rw [hleft] at hchildren
        rw [modifyMark_append_done hchildren]
      | some left =>
        rw [hleft] at hchildren
        rw [modifyMark_append_left hchildren, modifyMark_text]

theorem modifyMark_ofNodes {f : Element → Element} (hf : ChangesStart f g) (ns : List Node)
    (i : Nat) : modifyMark g (Sweep.marked.ofNodes ns) i =
      (Sweep.marked.ofNodes (Node.modifyElementAll f ns i).1,
        (Node.modifyElementAll f ns i).2) := by
  cases ns with
  | nil => rfl
  | cons n ns =>
    have hn := modifyMark_ofNode hf n i
    rw [Sweep.ofNodes_cons, Node.modifyElementAll]
    split
    · rename_i n' heq
      rw [heq] at hn
      rw [modifyMark_append_done hn, Sweep.ofNodes_cons]
    · rename_i n' left heq
      rw [heq] at hn
      rw [modifyMark_append_left hn, modifyMark_ofNodes hf ns left, Sweep.ofNodes_cons]

end

/-! ### Tokens -/

/-- What stands behind the start tag of a token. -/
def Token.behind : Token → Text
  | .rawElement _ content name trailing => content ++ (Closing.explicit name trailing).render
  | _ => []

theorem Token.render_of_start? {t : Token} {start : StartTag} (h : t.start? = some start) :
    t.render = start.render ++ t.behind := by
  cases t <;> cases h <;> simp [Token.render, Token.behind]

def Token.marks (t : Token) : List (Char ⊕ StartTag) :=
  match t.start? with
  | some start => .inr start :: t.behind.map .inl
  | none => t.render.map .inl

theorem Token.marks_of_start? {t : Token} {start : StartTag} (h : t.start? = some start) :
    t.marks = .inr start :: t.behind.map .inl := by
  rw [Token.marks, h]

theorem ofTokens_marked (b : Builder) (ts : List Token) :
    Sweep.marked.ofTokens b ts = ts.flatMap Token.marks := by
  induction ts generalizing b with
  | nil => rfl
  | cons t ts ih =>
    rw [Sweep.ofTokens, ih, List.flatMap_cons]
    congr 1
    cases t with
    | endTag name trailing =>
      simp only [Sweep.ofToken]
      cases b.innermost? name <;> rfl
    | rawElement => simp [Sweep.ofToken, Sweep.marked, Token.marks, Token.start?, Token.behind]
    | _ => rfl

theorem flatMap_marks_markText (ts : List Token) :
    (ts.flatMap Token.marks).flatMap markText = ts.flatMap Token.render := by
  induction ts with
  | nil => rfl
  | cons t ts ih =>
    rw [List.flatMap_cons, List.flatMap_append, ih, List.flatMap_cons]
    congr 1
    cases hs : t.start? with
    | none => rw [Token.marks, hs, flatMap_markText]
    | some start =>
      rw [Token.marks_of_start? hs, List.flatMap_cons, flatMap_markText, Token.render_of_start? hs]
      rfl

theorem modifyMark_tokens (ts : List Token) (n : Nat) :
    modifyMark g (ts.flatMap Token.marks) ((ts.filterMap Token.start?).length + n) =
      (ts.flatMap Token.marks, some n) := by
  induction ts with
  | nil => simp [modifyMark]
  | cons t ts ih =>
    rw [List.flatMap_cons, List.filterMap_cons]
    cases hs : t.start? with
    | none =>
      have ht := modifyMark_text (g := g) t.render ((ts.filterMap Token.start?).length + n)
      have hmarks : t.marks = t.render.map .inl := by rw [Token.marks, hs]
      rw [hmarks, modifyMark_append_left ht, ih]
    | some start =>
      have ht := modifyMark_text (g := g) t.behind ((ts.filterMap Token.start?).length + n)
      have hsucc : (ts.filterMap Token.start?).length + 1 + n =
          (ts.filterMap Token.start?).length + n + 1 := by omega
      rw [Token.marks_of_start? hs, List.cons_append]
      simp only [List.length_cons, hsucc, modifyMark]
      rw [modifyMark_append_left ht, ih]

end Marks

/-! ## The text around a start tag -/

theorem exists_split_of_getElem?_filterMap {α β : Type} {p : α → Option β} {l : List α} {i : Nat}
    {b : β} (h : (l.filterMap p)[i]? = some b) :
    ∃ front a back, l = front ++ a :: back ∧ p a = some b ∧ (front.filterMap p).length = i := by
  induction l generalizing i with
  | nil => simp at h
  | cons a l ih =>
    cases ha : p a with
    | none =>
      rw [List.filterMap_cons_none ha] at h
      obtain ⟨front, a', back, rfl, hp, hlength⟩ := ih h
      exact ⟨a :: front, a', back, rfl, hp, by rw [List.filterMap_cons_none ha, hlength]⟩
    | some b' =>
      rw [List.filterMap_cons_some ha] at h
      cases i with
      | zero => exact ⟨[], a, l, rfl, ha.trans h, rfl⟩
      | succ i =>
        obtain ⟨front, a', back, rfl, hp, hlength⟩ := ih h
        exact ⟨a :: front, a', back, rfl, hp, by simp [List.filterMap_cons_some ha, hlength]⟩

/-! ## Reading the text again -/

theorem ReadsUpTo.of_head?_eq {ts : List Token} {s s' : Text} (h : ReadsUpTo s ts)
    (hhead : s'.head? = s.head?) : ReadsUpTo s' ts := by
  induction ts with
  | nil => trivial
  | cons t ts ih =>
    exact ⟨readsBefore_of_head?_eq h.1 (head?_append_of_head?_eq hhead), ih h.2⟩

theorem readsAll_append {us vs : List Token} :
    ReadsAll (us ++ vs) ↔ ReadsUpTo (vs.flatMap Token.render) us ∧ ReadsAll vs := by
  induction us with
  | nil => simp [ReadsUpTo]
  | cons u us ih => simp only [List.cons_append, ReadsAll, ReadsUpTo, List.flatMap_append, ih,
      and_assoc]

def Token.withStart (t : Token) (start : StartTag) : Token :=
  match t with
  | .startTag _ selfClosing => .startTag start selfClosing
  | .rawElement _ content name trailing => .rawElement start content name trailing
  | t => t

theorem Token.withStart_start? {t : Token} {start : StartTag} (h : t.start? = some start)
    (start' : StartTag) : (t.withStart start').start? = some start' ∧
      (t.withStart start').behind = t.behind := by
  cases t <;> cases h <;> exact ⟨rfl, rfl⟩

theorem Token.Formed.withStart {t : Token} (h : t.Formed) {start start' : StartTag}
    (hs : t.start? = some start) (hform : ∀ sc, start.Formed sc → start'.Formed sc)
    (htag : start'.tag = start.tag) (hapart : start'.keptApart = true) :
    (t.withStart start').Formed := by
  cases h with
  | startTag hf _ hraw =>
    cases hs
    exact .startTag (hform _ hf) hapart (by rwa [htag])
  | rawElement hf _ hvoid hraw hcontent hname htail =>
    cases hs
    exact .rawElement (hform _ hf) hapart (by rwa [htag]) (by rwa [htag]) (by rwa [htag]) hname
      htail
  | endTag => cases hs

theorem Token.Formed.of_start? {t : Token} {start : StartTag} (hs : t.start? = some start)
    (h : (∃ content, t = .text content) ∨ t.Formed) : t.Formed := by
  rcases h with ⟨content, rfl⟩ | h
  · cases hs
  · exact h

theorem rawElement_start? {tagStart s rest : Text} {start : StartTag} {t : Token}
    (h : rawElement tagStart start s = .ok (t, rest)) : t.start? = some start := by
  unfold rawElement at h
  split at h
  · cases h
  · split at h <;> cases h
    rfl

/-- A token that begins with a start tag is read off its text with the pieces of this tag. -/
theorem exists_of_readsBefore_startTag {u : Token} {start : StartTag} {rest r : Text}
    (htag : IsTagName start.tag)
    (hrun : Text.endsRun isNameChar
      (start.attributes.flatMap Attribute.render ++ (start.tail ++ r)) = true)
    (h : u.ReadsBefore rest) (hs : u.render ++ rest = start.render ++ r) :
    ∃ tagStart found, u.start? = some ⟨start.tag, found.attributes, found.tail⟩ ∧
      attributes tagStart (start.attributes.flatMap Attribute.render ++ (start.tail ++ r)) =
        .ok found := by
  have hsplit : start.render ++ r = '<' ::
      (start.tag ++ (start.attributes.flatMap Attribute.render ++ (start.tail ++ r))) := by
    simp [StartTag.render]
  have hstep := step_eq_ok_iff.mpr ⟨(hs.trans hsplit).symm, h⟩
  have hfront : front ('<' ::
      (start.tag ++ (start.attributes.flatMap Attribute.render ++ (start.tail ++ r)))) =
        .startTag := by
    obtain ⟨c, n, hname, hc, -⟩ := htag
    rw [front_tag, hname, List.cons_append, tagFront_alpha hc]
  unfold step startToken at hstep
  rw [hfront] at hstep
  simp only [Text.dropWhile_run htag.isNameChar hrun, Text.takeWhile_run htag.isNameChar hrun]
    at hstep
  split at hstep
  · cases hstep
  · rename_i found hfound
    refine ⟨_, found, ?_, hfound⟩
    split at hstep
    · exact rawElement_start? hstep
    · cases hstep
      rfl

namespace Document

/-- An element has its start tag in a token. An edit of the start tag alone is written between what
is in front of this token and what stands in it behind the start tag. -/
theorem exists_around {s : Text} {d : Document} (h : ofText s = .ok d) {i : Nat} {e : Element}
    (he : d.elements[i]? = some e) :
    ∃ us t vs, tokens s = .ok (us ++ t :: vs) ∧ t.start? = some e.toStartTag ∧
      (us.filterMap Token.start?).length = i ∧
      ∀ f g, ChangesStart f g → (d.modifyElement f i).toText =
        us.flatMap Token.render ++
          ((g e.toStartTag).render ++ (t.behind ++ vs.flatMap Token.render)) := by
  obtain ⟨ts, hts, rfl⟩ := ofText_eq_ok_iff.mp h
  have hstart : (ts.filterMap Token.start?)[i]? = some e.toStartTag := by
    rw [← startTags_eq, startTags, List.getElem?_map, he]
    rfl
  obtain ⟨us, t, vs, rfl, ht, hi⟩ := exists_split_of_getElem?_filterMap hstart
  refine ⟨us, t, vs, hts, ht, hi, fun f g hf => ?_⟩
  have hmarks := modifyMark_ofNodes hf (build (us ++ t :: vs)) i
  have hus := modifyMark_tokens (g := g) us 0
  rw [Nat.add_zero, hi] at hus
  rw [Sweep.ofNodes_build, ofTokens_marked, List.flatMap_append] at hmarks
  rw [modifyMark_append_left hus, List.flatMap_cons, Token.marks_of_start? ht, List.cons_append,
    modifyMark] at hmarks
  have hwritten := congrArg (fun p => p.1.flatMap markText) hmarks
  simp only [ofNodes_markText, List.flatMap_append, List.flatMap_cons, flatMap_marks_markText,
    flatMap_markText] at hwritten
  rw [toText, modifyElement, ← hwritten]
  rfl

section Edit

variable {s : Text} {d : Document} {i : Nat} {e : Element} {f : Element → Element}
  {g : StartTag → StartTag}

/-- If the edited tag is written as a tag of this name whose parts have their forms and are kept
apart, then this one is read, and all others as before. -/
theorem rereads_element (h : ofText s = .ok d) (he : d.elements[i]? = some e)
    (hf : ChangesStart f g) {t : StartTag} (hrender : t.render = (g e.toStartTag).render)
    (hform : ∀ sc, e.toStartTag.Formed sc → t.Formed sc) (htag : t.tag = e.tag)
    (hapart : t.keptApart = true) :
    ∃ again, ofText (d.modifyElement f i).toText = .ok again ∧
      again.startTags = d.startTags.set i t := by
  obtain ⟨us, u, vs, hts, hu, hi, hwritten⟩ := exists_around h he
  obtain ⟨-, hreads⟩ := tokens_eq_ok_iff.mp hts
  obtain ⟨hus, hrest⟩ := readsAll_append.mp hreads
  have hu' := (Token.Formed.of_start? hu (hrest.formed u List.mem_cons_self)).withStart hu hform
    htag hapart
  obtain ⟨hstart, hbehind⟩ := Token.withStart_start? hu t
  have hlater : ReadsAll (u.withStart t :: vs) := ⟨hu'.readsBefore _, hrest.2⟩
  have htext : (u.withStart t :: vs).flatMap Token.render =
      (g e.toStartTag).render ++ (u.behind ++ vs.flatMap Token.render) := by
    rw [List.flatMap_cons, Token.render_of_start? hstart, hbehind, hrender, List.append_assoc]
  -- the text in front of the tag meets the same `<`
  have hhead : ((u.withStart t :: vs).flatMap Token.render).head? =
      ((u :: vs).flatMap Token.render).head? := by
    rw [htext, List.flatMap_cons, Token.render_of_start? hu]
    rfl
  have htokens : tokens (d.modifyElement f i).toText = .ok (us ++ u.withStart t :: vs) := by
    rw [hwritten f g hf, ← htext, (hus.of_head?_eq hhead).tokens, tokens_eq_ok_iff.mpr ⟨rfl, hlater⟩]
    rfl
  refine ⟨_, ofText_eq_ok_iff.mpr ⟨_, htokens, rfl⟩, ?_⟩
  obtain ⟨_, hts', rfl⟩ := ofText_eq_ok_iff.mp h
  rw [hts] at hts'
  cases hts'
  simp [startTags_eq, hu, hstart, ← hi]

/-- If the text is read after the edit, then in place of the edited tag its name, with the pieces
that are read off what is written behind it. -/
theorem exists_of_reread_element (h : ofText s = .ok d) (he : d.elements[i]? = some e)
    (hf : ChangesStart f g) (htag : IsTagName (g e.toStartTag).tag)
    (hrun : ∀ r, Text.endsRun isNameChar
      ((g e.toStartTag).attributes.flatMap Attribute.render ++ ((g e.toStartTag).tail ++ r)) = true)
    {again : Document} (hagain : ofText (d.modifyElement f i).toText = .ok again) :
    ∃ tagStart found r, again.startTags[i]? =
        some ⟨(g e.toStartTag).tag, found.attributes, found.tail⟩ ∧
      attributes tagStart ((g e.toStartTag).attributes.flatMap Attribute.render ++
        ((g e.toStartTag).tail ++ r)) = .ok found := by
  obtain ⟨us, u, vs, hts, hu, hi, hwritten⟩ := exists_around h he
  obtain ⟨-, hreads⟩ := tokens_eq_ok_iff.mp hts
  obtain ⟨hus, -⟩ := readsAll_append.mp hreads
  have hhead : ((g e.toStartTag).render ++ (u.behind ++ vs.flatMap Token.render)).head? =
      ((u :: vs).flatMap Token.render).head? := by
    rw [List.flatMap_cons, Token.render_of_start? hu]
    rfl
  obtain ⟨ts, hts', rfl⟩ := ofText_eq_ok_iff.mp hagain
  rw [hwritten f g hf, (hus.of_head?_eq hhead).tokens] at hts'
  obtain ⟨ws, hws, rfl⟩ := exists_of_map_eq_ok hts'
  obtain ⟨htext, hread⟩ := tokens_eq_ok_iff.mp hws
  cases ws with
  | nil => simp [StartTag.render] at htext
  | cons w ws =>
    obtain ⟨tagStart, found, hw, hfound⟩ :=
      exists_of_readsBefore_startTag htag (hrun _) hread.1 htext.symm
    refine ⟨tagStart, found, _, ?_, hfound⟩
    rw [startTags_eq, List.filterMap_append, List.filterMap_cons_some hw, ← hi]
    simp

end Edit

end Document

end ExtensionAudit.Markup
