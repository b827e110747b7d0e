import ExtensionAudit.Proofs.Markup.WellFormed
/-
  Where raw text ends. The content of a script or style is searched for the first
  `</` that the tag follows, in any case, and there the content ends. The end tag is
  then read as every other one is, up to the end of its name, so it can have a longer
  name than the element: nothing asks whether it is the name that was looked for.

  Main statements: `Document.endsAtOwnTag_iff_of_parse` (the content goes up to the
  element's own end tag exactly if nothing more of a name follows the tag there) and
  `Document.not_endsAtOwnTag_scripts` (an end tag of another name ends a script).
-/

namespace ExtensionAudit.Markup

/-! ## What holds of every element -/

/-- A property of elements and their children that every element of the node has. -/
inductive Node.AllElements (P : Element → List Node → Prop) : Node → Prop where
  | text (content : Text) (line : Nat) : AllElements P (.text content line)
  | element {e : Element} {children : List Node} : P e children →
      (∀ n ∈ children, n.AllElements P) → AllElements P (.element e children)

section AllElements

variable {P : Element → List Node → Prop}

theorem Node.Level.allElements {roots siblings : List Node} (hlevel : Level roots siblings)
    (hroots : ∀ n ∈ roots, n.AllElements P) : ∀ n ∈ siblings, n.AllElements P := by
  induction hlevel with
  | roots => exact hroots
  | children _ hmem ih =>
    cases ih _ hmem with
    | element _ hchildren => exact hchildren

/-- Every element that a token can become has the property. An element that is left open has it
whatever comes into it and whatever closes it. -/
def Token.Makes (P : Element → List Node → Prop) : Token → Prop
  | .startTag start selfClosing => ∀ line closing children,
      (selfClosing = true → closing = .selfClosing) → P ⟨start, line, closing⟩ children
  | .rawElement start content name trailing => ∀ line contentLine,
      P ⟨start, line, .explicit name trailing⟩ (Builder.rawChildren content contentLine)
  | .text _ | .endTag _ _ => True

namespace Builder

variable {b : Builder}

/-- Every finished element has the property, and every open one will. -/
structure AllElements (P : Element → List Node → Prop) (b : Builder) : Prop where
  siblings : ∀ n ∈ b.siblings, n.AllElements P
  stack : ∀ o ∈ b.stack, (∀ n ∈ o.before, n.AllElements P) ∧
    ∀ closing children, P ⟨o.start, o.line, closing⟩ children

theorem AllElements.flush (h : b.AllElements P) : b.flush.AllElements P := by
  unfold Builder.flush
  split
  · exact h
  · exact ⟨List.forall_mem_cons.mpr ⟨.text _ _, h.siblings⟩, h.stack⟩

theorem AllElements.add (h : b.AllElements P) {n : Node} (hn : n.AllElements P) :
    (b.add n).AllElements P :=
  ⟨List.forall_mem_cons.mpr ⟨hn, h.siblings⟩, h.stack⟩

theorem AllElements.close (h : b.AllElements P) (closing : Closing) :
    (b.close closing).AllElements P := by
  cases hstack : b.stack with
  | nil =>
    rw [Builder.close, hstack]
    exact h
  | cons top outer =>
    have hopen := h.stack
    rw [hstack] at hopen
    obtain ⟨⟨hbefore, htop⟩, houter⟩ := List.forall_mem_cons.mp hopen
    have helement : (Node.element ⟨top.start, top.line, closing⟩ b.siblings.reverse).AllElements P :=
      .element (htop _ _) fun n hn => h.siblings n (List.mem_reverse.mp hn)
    rw [Builder.close, hstack]
    exact ⟨List.forall_mem_cons.mpr ⟨helement, hbefore⟩, houter⟩

theorem AllElements.closeUnclosed (h : b.AllElements P) (n : Nat) :
    (b.closeUnclosed n).AllElements P := by
  induction n generalizing b with
  | zero => exact h
  | succ n ih => exact ih (h.close .unclosed)

theorem allElements_rawChildren (content : Text) (line : Nat) :
    ∀ n ∈ rawChildren content line, n.AllElements P := by
  unfold rawChildren
  split
  · simp
  · exact List.forall_mem_cons.mpr ⟨.text _ _, by simp⟩

theorem AllElements.place (h : b.AllElements P) {t : Token} (ht : t.Makes P) :
    (b.place t).AllElements P := by
  cases t with
  | text content => exact ⟨h.siblings, h.stack⟩
  | startTag start selfClosing =>
    simp only [Builder.place]
    split
    · exact h.flush.add (.element (ht _ _ _ fun _ => rfl) (by simp))
    · rename_i hself
      have hopen (line : Nat) (closing : Closing) (children : List Node) :
          P ⟨start, line, closing⟩ children := ht _ _ _ fun hs => absurd hs hself
      split
      · exact h.flush.add (.element (hopen _ _ _) (by simp))
      · exact ⟨by simp, List.forall_mem_cons.mpr
          ⟨⟨h.flush.siblings, hopen _⟩, h.flush.stack⟩⟩
  | rawElement start content name trailing =>
    exact h.flush.add (.element (ht _ _) (allElements_rawChildren _ _))
  | endTag name trailing =>
    simp only [Builder.place]
    split
    · exact ⟨h.siblings, h.stack⟩
    · exact (h.flush.closeUnclosed _).close _

theorem AllElements.foldl (h : b.AllElements P) {ts : List Token} (hts : ∀ t ∈ ts, t.Makes P) :
    (ts.foldl next b).AllElements P := by
  induction ts generalizing b with
  | nil => exact h
  | cons t ts ih =>
    obtain ⟨ht, hts⟩ := List.forall_mem_cons.mp hts
    have hplace := h.place ht
    exact ih ⟨hplace.siblings, hplace.stack⟩ hts

end Builder

/-- What holds of every element that the tokens can become holds of every element of the tree. -/
theorem allElements_build {ts : List Token} (hts : ∀ t ∈ ts, t.Makes P) :
    ∀ n ∈ build ts, n.AllElements P := by
  have hempty : Builder.empty.AllElements P := ⟨by simp [Builder.empty], by simp [Builder.empty]⟩
  have hclosed := (hempty.foldl hts).flush.closeUnclosed
    (ts.foldl Builder.next .empty).flush.stack.length
  exact fun n hn => hclosed.siblings n (List.mem_reverse.mp hn)

end AllElements

/-! ## The end of raw text -/

/-- Whether a text contains `</` and behind it the tag, in any case. -/
def HasClose (tag s : Text) : Prop :=
  ∃ front spelled back, s = front ++ '<' :: '/' :: (spelled ++ back) ∧
    Text.sameIgnoringCase spelled tag = true

/-- The end of a raw text element is found at the tag: the name of its end tag begins with a
spelling of the tag, more of a name may follow, and the content has no such place in it. -/
structure Element.EndsAtTag (e : Element) (children : List Node)
    (spelled more trailing : Text) : Prop where
  closing : e.closing = .explicit (spelled ++ more) trailing
  spelled : Text.sameIgnoringCase spelled e.tag = true
  more : ∀ c ∈ more, isNameChar c = true
  trailing : IsEndTail trailing
  content : ¬HasClose e.tag (Node.renderAll children)

/-- The content of an element goes up to the first end tag of its own: this one closes it, and in
the content every `</` and tag is the beginning of a longer name. -/
def Element.EndsAtOwnTag (e : Element) (children : List Node) : Prop :=
  (∃ name trailing, e.closing = .explicit name trailing ∧
    Text.sameIgnoringCase name e.tag = true) ∧
  ∀ front spelled c back,
    Node.renderAll children = front ++ '<' :: '/' :: (spelled ++ c :: back) →
      Text.sameIgnoringCase spelled e.tag = true → isNameChar c = true

theorem length_of_sameIgnoringCase {s t : Text} (h : Text.sameIgnoringCase s t = true) :
    s.length = t.length := by
  simpa using congrArg List.length (Text.sameIgnoringCase_iff.mp h)

/-- The end is found at the tag, so it is the element's own if and only if the name of the end tag
ends there. -/
theorem Element.EndsAtTag.endsAtOwnTag_iff {e : Element} {children : List Node}
    {spelled more trailing : Text} (h : e.EndsAtTag children spelled more trailing) :
    e.EndsAtOwnTag children ↔ more = [] := by
  constructor
  · rintro ⟨⟨name, _, hclosing, hname⟩, -⟩
    rw [h.closing] at hclosing
    cases hclosing
    have hlength := length_of_sameIgnoringCase hname
    rw [List.length_append, length_of_sameIgnoringCase h.spelled] at hlength
    exact List.length_eq_zero_iff.mp (by omega)
  · rintro rfl
    refine ⟨⟨spelled, trailing, by simpa using h.closing, h.spelled⟩, ?_⟩
    intro front spelled c back hcontent hspelled
    exact absurd ⟨front, spelled, c :: back, hcontent, hspelled⟩ h.content

theorem startsClose_iff {tag s : Text} : startsClose tag s = true ↔
    ∃ spelled back, s = '<' :: '/' :: (spelled ++ back) ∧
      Text.sameIgnoringCase spelled tag = true := by
  constructor
  · intro h
    unfold startsClose at h
    split at h
    · exact ⟨_, _, by rw [List.take_append_drop], h⟩
    · cases h
  · rintro ⟨spelled, back, rfl, hspelled⟩
    rwa [startsClose, List.take_left' (length_of_sameIgnoringCase hspelled)]

theorem isNameChar_of_toLower {c : Char} (h : isNameChar c.toLower = true) :
    isNameChar c = true := by
  unfold Char.toLower at h
  split at h
  · rename_i hupper
    have hc : c.isUpper = true := decide_eq_true hupper
    exact isNameChar_of_isAlpha ((Bool.or_eq_true _ _).mpr (.inl hc))
  · exact h

theorem isNameChar_of_isRawText {tag spelled : Text} (hraw : isRawText tag = true)
    (h : Text.sameIgnoringCase spelled tag = true) : ∀ c ∈ spelled, isNameChar c = true := by
  obtain ⟨raw, hmem, hsame⟩ := isTagIn_iff.mp hraw
  have hletters : rawTextTags.all (fun raw => (raw.toList.map Char.toLower).all isNameChar) =
      true := by decide +kernel
  rw [Text.sameIgnoringCase_iff] at h hsame
  intro c hc
  have hlower : c.toLower ∈ raw.toList.map Char.toLower := by
    rw [hsame, ← h]
    exact List.mem_map_of_mem hc
  exact isNameChar_of_toLower
    (List.all_eq_true.mp (List.all_eq_true.mp hletters raw hmem) _ hlower)

/-- Where the content of a raw text element ends, an end tag begins whose name begins with the
tag. -/
theorem exists_spelled_of_contentEnds {tag content name trailing : Text}
    (hraw : isRawText tag = true)
    (h : contentEnds tag content (Closing.explicit name trailing).render = true)
    (hname : ∀ c ∈ name, isNameChar c = true) (htail : IsEndTail trailing) :
    ∃ spelled more, name = spelled ++ more ∧ Text.sameIgnoringCase spelled tag = true := by
  obtain ⟨hclose, -⟩ := contentEnds_iff.mp h
  obtain ⟨spelled, back, heq, hspelled⟩ := startsClose_iff.mp hclose
  have heq : name ++ (trailing ++ ['>']) = spelled ++ back := by
    simpa [Closing.render] using heq
  -- the name is the whole run of name characters there
  have hrun := Text.takeWhile_run hname (htail.endsRun [])
  rw [heq, List.takeWhile_append_of_pos (isNameChar_of_isRawText hraw hspelled)] at hrun
  exact ⟨spelled, _, hrun.symm, hspelled⟩

theorem not_hasClose_of_contentEnds {tag content close : Text}
    (h : contentEnds tag content close = true) : ¬HasClose tag content := by
  rintro ⟨front, spelled, back, rfl, hspelled⟩
  obtain ⟨-, hno⟩ := contentEnds_iff.mp h
  have hstarts : startsClose tag ('<' :: '/' :: (spelled ++ back) ++ close) = true :=
    startsClose_iff.mpr ⟨spelled, back ++ close, by simp, hspelled⟩
  rw [hno _ (List.suffix_append _ _) (by simp)] at hstarts
  cases hstarts

/-- If an element is of raw text and does not close itself, its end is found at the tag. -/
def Element.RawEnd (e : Element) (children : List Node) : Prop :=
  isRawText e.tag = true → e.closing ≠ .selfClosing →
    ∃ spelled more trailing, e.EndsAtTag children spelled more trailing

theorem Token.Formed.makes_rawEnd {t : Token} (h : t.Formed) : t.Makes Element.RawEnd := by
  cases h with
  | startTag _ _ hplain =>
    -- a start tag of raw text is a token by itself only if it closes itself
    intro line closing children hself hraw hclosing
    have hvoid : isVoid _ = false := Bool.eq_false_iff.mpr fun hvoid => by
      rw [isRawText_of_isVoid hvoid] at hraw
      cases hraw
    simp only [hvoid, hraw, Bool.not_false, Bool.and_true, Bool.not_eq_false'] at hplain
    exact absurd (hself hplain) hclosing
  | rawElement _ _ _ hraw hcontent hname htail =>
    intro line contentLine _ _
    obtain ⟨spelled, more, rfl, hspelled⟩ :=
      exists_spelled_of_contentEnds hraw hcontent hname htail
    refine ⟨spelled, more, _, rfl, hspelled, fun c hc => hname c (by simp [hc]), htail, ?_⟩
    rw [Builder.renderAll_rawChildren]
    exact not_hasClose_of_contentEnds hcontent
  | endTag => trivial

namespace Document

/-- A raw text element that does not close itself ends at the first `</` that its tag follows. Its
content goes up to its own end tag if and only if nothing more of a name stands there. -/
theorem endsAtOwnTag_iff_of_parse {source : String} {d : Document} (h : parse source = .ok d)
    {siblings children : List Node} (hlevel : Node.Level d.nodes siblings) {e : Element}
    (he : .element e children ∈ siblings) (hraw : isRawText e.tag = true)
    (hclosing : e.closing ≠ .selfClosing) :
    ∃ spelled more trailing, e.EndsAtTag children spelled more trailing ∧
      (e.EndsAtOwnTag children ↔ more = []) := by
  obtain ⟨ts, hts, rfl⟩ := ofText_eq_ok_iff.mp h
  have hmakes : ∀ t ∈ ts, t.Makes Element.RawEnd := by
    intro t ht
    rcases (tokens_eq_ok_iff.mp hts).2.formed t ht with ⟨content, rfl⟩ | hform
    · trivial
    · exact hform.makes_rawEnd
  cases hlevel.allElements (allElements_build hmakes) _ he with
  | element hend _ =>
    obtain ⟨spelled, more, trailing, hends⟩ := hend hraw hclosing
    exact ⟨spelled, more, trailing, hends, hends.endsAtOwnTag_iff⟩

/-- A style in a paragraph, with another case in its end tag and an end tag of another name in its
content. -/
theorem endsAtOwnTag_iff_of_parse_style :
    ∃ d p children e content, parse "<p><Style>a > b </b></STYLE ></p>" = .ok d ∧
      .element p children ∈ d.nodes ∧ .element e content ∈ children ∧
      isRawText e.tag = true ∧ e.closing ≠ .selfClosing ∧
      ∃ spelled more trailing, e.EndsAtTag content spelled more trailing ∧
        (e.EndsAtOwnTag content ↔ more = []) := by
  obtain ⟨d, hd, hany⟩ := exists_of_any "<p><Style>a > b </b></STYLE ></p>"
    (·.nodes.any (Node.isElementWith fun _ children =>
      children.any (Node.isElementWith fun e _ =>
        isRawText e.tag && e.closing ≠ .selfClosing))) (by decide +kernel)
  obtain ⟨p, children, hp, hany⟩ := Node.exists_of_any_isElementWith hany
  obtain ⟨e, content, he, hraw⟩ := Node.exists_of_any_isElementWith hany
  obtain ⟨hraw, hclosing⟩ := Bool.and_eq_true_iff.mp hraw
  have hclosing := of_decide_eq_true hclosing
  exact ⟨d, p, children, e, content, hd, hp, he, hraw, hclosing,
    endsAtOwnTag_iff_of_parse hd (.children .roots hp) he hraw hclosing⟩

/-- A script is ended by an end tag of another name, though the rest of the source has its own. -/
theorem not_endsAtOwnTag_scripts :
    ∃ d e children, parse "<script>a</scripts>b</script>" = .ok d ∧
      .element e children ∈ d.nodes ∧ isRawText e.tag = true ∧ e.closing ≠ .selfClosing ∧
      ¬e.EndsAtOwnTag children := by
  obtain ⟨d, hd, hany⟩ := exists_of_any "<script>a</scripts>b</script>"
    (·.nodes.any (Node.isElementWith fun e _ =>
      e.tag = "script".toList ∧ e.closing = .explicit "scripts".toList [])) (by decide +kernel)
  obtain ⟨e, children, he, hp⟩ := Node.exists_of_any_isElementWith hany
  obtain ⟨htag, hclosing⟩ := of_decide_eq_true hp
  refine ⟨d, e, children, hd, he, by rw [htag]; decide +kernel, by simp [hclosing], ?_⟩
  rintro ⟨⟨name, trailing, hexplicit, hname⟩, -⟩
  rw [hclosing] at hexplicit
  cases hexplicit
  rw [htag] at hname
  revert hname
  decide +kernel

end Document

end ExtensionAudit.Markup
