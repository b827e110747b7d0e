import ExtensionAudit.Proofs.Markup.Tree
/-
  Sweeps: what is collected from a tree in document order is collected from its
  tokens from left to right. Texts of the tree are made of several tokens, and an
  end tag belongs to an element or to a text, so the tokens are read beside the
  builder that they are put into.

  Main statement: `Sweep.ofNodes_build`, the sweep over the tree that a list of
  tokens makes is the sweep over the list.
-/

namespace ExtensionAudit.Markup

/-- Something to collect in document order: what a text gives, what a start tag gives, and what
an end tag gives to the element with this start tag. Pieces of text give what the whole gives. -/
structure Sweep (α : Type) where
  text : Text → List α
  opening : StartTag → List α
  ending : StartTag → Text → Text → List α
  text_append : ∀ s t, text (s ++ t) = text s ++ text t

namespace Sweep

variable {α : Type} (S : Sweep α)

/-- What the end of an element gives. -/
def closing (t : StartTag) : Closing → List α
  | .explicit name trailing => S.ending t name trailing
  | _ => []

mutual

def ofNode : Node → List α
  | .text content _ => S.text content
  | .element e children =>
    S.opening e.toStartTag ++ ofNodes children ++ S.closing e.toStartTag e.closing

def ofNodes : List Node → List α
  | [] => []
  | n :: ns => ofNode n ++ ofNodes ns

end

@[simp] theorem ofNodes_nil : S.ofNodes [] = [] := by simp [ofNodes]

@[simp] theorem ofNodes_cons (n : Node) (ns : List Node) :
    S.ofNodes (n :: ns) = S.ofNode n ++ S.ofNodes ns := by simp [ofNodes]

@[simp] theorem ofNodes_append (ms ns : List Node) :
    S.ofNodes (ms ++ ns) = S.ofNodes ms ++ S.ofNodes ns := by
  induction ms with
  | nil => simp
  | cons m ms ih => simp [ih]

@[simp] theorem text_nil : S.text [] = [] := by
  have h := congrArg List.length (S.text_append [] [])
  rw [List.append_nil, List.length_append] at h
  exact List.length_eq_zero_iff.mp (by omega)

/-! ## The tree under construction -/

/-- The sweep over the open elements, outermost first, and the nodes in front of them. -/
def ofOpen : List OpenElement → List α
  | [] => []
  | top :: outer => ofOpen outer ++ S.ofNodes top.before.reverse ++ S.opening top.start

/-- The sweep over all that a builder has taken in. -/
def ofBuilder (b : Builder) : List α :=
  S.ofOpen b.stack ++ S.ofNodes b.siblings.reverse ++ S.text b.pending.reverse

/-- What a token gives when it is put into the builder. -/
def ofToken (b : Builder) : Token → List α
  | .text content => S.text content
  | .startTag start _ => S.opening start
  | .rawElement start content name trailing =>
    S.opening start ++ S.text content ++ S.ending start name trailing
  | .endTag name trailing =>
    match b.innermost? name with
    | some start => S.ending start name trailing
    | none => S.text (Closing.explicit name trailing).render

/-- What a list of tokens gives behind the tokens that the builder holds. -/
def ofTokens (b : Builder) : List Token → List α
  | [] => []
  | t :: ts => S.ofToken b t ++ ofTokens (b.next t) ts

theorem ofBuilder_addText (b : Builder) (content : Text) :
    S.ofBuilder (b.addText content) = S.ofBuilder b ++ S.text content := by
  simp [ofBuilder, Builder.addText, S.text_append]

@[simp] theorem ofBuilder_flush (b : Builder) : S.ofBuilder b.flush = S.ofBuilder b := by
  unfold Builder.flush
  split
  · rfl
  · simp [ofBuilder, ofNode]

theorem ofBuilder_add {b : Builder} (h : b.pending = []) (n : Node) :
    S.ofBuilder (b.add n) = S.ofBuilder b ++ S.ofNode n := by
  simp [ofBuilder, Builder.add, h]

theorem ofBuilder_close {b : Builder} (h : b.pending = []) {top : OpenElement}
    {outer : List OpenElement} (hs : b.stack = top :: outer) (c : Closing) :
    S.ofBuilder (b.close c) = S.ofBuilder b ++ S.closing top.start c := by
  unfold Builder.close
  rw [hs]
  simp [ofBuilder, ofOpen, ofNode, h, hs]

theorem ofBuilder_closeUnclosed {b : Builder} (h : b.pending = []) (n : Nat) :
    S.ofBuilder (b.closeUnclosed n) = S.ofBuilder b := by
  induction n generalizing b with
  | zero => rfl
  | succ n ih =>
    unfold Builder.closeUnclosed
    rw [ih (by rw [Builder.close_pending, h])]
    cases hs : b.stack with
    | nil => simp [Builder.close, hs]
    | cons top outer => simp [S.ofBuilder_close h hs, closing]

theorem ofBuilder_next (b : Builder) (t : Token) :
    S.ofBuilder (b.next t) = S.ofBuilder b ++ S.ofToken b t := by
  -- the line reached is not collected
  have hline : S.ofBuilder (b.next t) = S.ofBuilder (b.place t) := rfl
  rw [hline]
  cases t with
  | text content => exact S.ofBuilder_addText b content
  | startTag start selfClosing =>
    simp only [Builder.place, ofToken]
    rw [← S.ofBuilder_flush b]
    split
    · simp [S.ofBuilder_add, ofNode, closing]
    · split
      · simp [S.ofBuilder_add, ofNode, closing]
      · simp [ofBuilder, ofOpen]
  | rawElement start content name trailing =>
    have hchildren (line : Nat) :
        S.ofNodes (Builder.rawChildren content line) = S.text content := by
      rcases Builder.rawChildren_cases content line with ⟨rfl, hnil⟩ | ⟨-, htext⟩
      · simp [hnil]
      · simp [htext, ofNode]
    simp only [Builder.place, ofToken]
    rw [S.ofBuilder_add (Builder.flush_pending b), S.ofBuilder_flush]
    simp [ofNode, closing, hchildren]
  | endTag name trailing =>
    rcases b.depthOf?_cases name with ⟨hd, hno⟩ | ⟨inner, top, outer, hs, hd, hinner, htop⟩
    · simp only [Builder.place, ofToken, hd, Builder.innermost?_eq_none hno]
      exact S.ofBuilder_addText b _
    · simp only [Builder.place, ofToken, hd, Builder.innermost?_eq_some hs hinner htop]
      have hp : (b.flush.closeUnclosed inner.length).pending = [] := by simp
      have hstack : (b.flush.closeUnclosed inner.length).stack = top :: outer := by simp [hs]
      rw [S.ofBuilder_close hp hstack, S.ofBuilder_closeUnclosed (Builder.flush_pending b),
        S.ofBuilder_flush]
      rfl

theorem ofBuilder_foldl (b : Builder) (ts : List Token) :
    S.ofBuilder (ts.foldl Builder.next b) = S.ofBuilder b ++ S.ofTokens b ts := by
  induction ts generalizing b with
  | nil => simp [ofTokens]
  | cons t ts ih => simp [ofTokens, ih, S.ofBuilder_next]

theorem ofNodes_finish (b : Builder) : S.ofNodes b.finish = S.ofBuilder b := by
  have hp := Builder.flush_pending b
  have h := S.ofBuilder_closeUnclosed hp b.flush.stack.length
  rw [S.ofBuilder_flush] at h
  rw [← h]
  simp [Builder.finish, ofBuilder, ofOpen]

/-- The sweep over a tree is the sweep over the tokens that it was made of. -/
theorem ofNodes_build (ts : List Token) : S.ofNodes (build ts) = S.ofTokens .empty ts := by
  rw [build, ofNodes_finish, ofBuilder_foldl]
  simp [ofBuilder, ofOpen, Builder.empty]

end Sweep

end ExtensionAudit.Markup
