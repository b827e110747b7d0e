import ExtensionAudit.Markup.StartTag
/-
  The tokens of a template: verbatim text, start tags, raw text elements and end
  tags. Reading tokens looks only at characters; which start tag an end tag
  belongs to is settled afterwards, when the tree is built.

  Main statement: `tokens_render`, the tokens of a source are written as the
  source.
-/

namespace ExtensionAudit.Markup

inductive Token where
  | text (content : Text)
  | startTag (start : StartTag) (selfClosing : Bool)
  | rawElement (start : StartTag) (content name trailing : Text)
  | endTag (name trailing : Text)
  deriving DecidableEq, Repr

def Token.render : Token → Text
  | .text content => content
  | .startTag start _ => start.render
  | .rawElement start content name trailing =>
    start.render ++ content ++ (Closing.explicit name trailing).render
  | .endTag name trailing => (Closing.explicit name trailing).render

/-- Elements that never have children. -/
def voidTags : List String :=
  ["area", "base", "br", "col", "embed", "hr", "img", "input", "keygen", "link", "meta", "param",
   "source", "track", "wbr"]

/-- Elements whose content is text up to their end tag. -/
def rawTextTags : List String := ["script", "style"]

def isTagIn (names : List String) (tag : Text) : Bool :=
  names.any fun name => Text.sameIgnoringCase name.toList tag

/-- Whether elements of this name never have children. -/
def isVoid (tag : Text) : Bool := isTagIn voidTags tag

/-- Whether the content of elements of this name is text. -/
def isRawText (tag : Text) : Bool := isTagIn rawTextTags tag

/-! ## Tags -/

/-- Reads an end tag behind its `</`: the name, what stands between it and the `>`, and the
rest. -/
def endTag? (s : Text) : Option (Text × Text × Text) :=
  let r := s.dropWhile isNameChar
  match r.dropWhile (· != '>') with
  | [] => none
  | _ :: rest => some (s.takeWhile isNameChar, r.takeWhile (· != '>'), rest)

/-- Whether the text begins with `</` and the tag, in any case. -/
def startsClose (tag : Text) : Text → Bool
  | '<' :: '/' :: r => Text.sameIgnoringCase (r.take tag.length) tag
  | _ => false

/-- Cuts in front of the first `</` that the tag follows; `seen` holds the passed characters,
last first. -/
def rawContentOnto (tag seen : Text) : Text → Option (Text × Text)
  | [] => none
  | c :: r =>
    if startsClose tag (c :: r) then some (seen.reverse, c :: r)
    else rawContentOnto tag (c :: seen) r

/-- Reads the content and the end tag of a raw text element. -/
def rawElement (tagStart : Text) (start : StartTag) (s : Text) : Except Cut (Token × Text) :=
  match rawContentOnto start.tag [] s with
  | none => .error ⟨.rawTextElement, tagStart⟩
  | some (content, close) =>
    match endTag? (close.drop 2) with
    | none => .error ⟨.rawTextElement, tagStart⟩
    | some (name, trailing, rest) => .ok (.rawElement start content name trailing, rest)

/-- Reads a start tag, and the whole element when its content is raw text. `s` begins behind
the `<`, `tagStart` with it. -/
def startToken (tagStart s : Text) : Except Cut (Token × Text) :=
  match attributes tagStart (s.dropWhile isNameChar) with
  | .error cut => .error cut
  | .ok found =>
    let start : StartTag := ⟨s.takeWhile isNameChar, found.attributes, found.tail⟩
    if !found.selfClosing && !isVoid start.tag && isRawText start.tag then
      rawElement tagStart start found.rest
    else .ok (.startTag start found.selfClosing, found.rest)

def endToken (tagStart s : Text) : Except Cut (Token × Text) :=
  match endTag? s with
  | none => .error ⟨.endTag, tagStart⟩
  | some (name, trailing, rest) => .ok (.endTag name trailing, rest)

/-! ## Steps -/

/-- What the text begins with. -/
inductive Front where
  | verbatim (v : Verbatim)
  | startTag
  | endTag
  | plain
  deriving DecidableEq, Repr

/-- What a text that is no Twig construct begins with. A comment's terminator may share
characters with its opener. -/
def tagFront : Text → Front
  | '<' :: '!' :: '-' :: '-' :: _ => .verbatim ⟨0, ['-', '-', '>'], .comment⟩
  | '<' :: '!' :: _ => .verbatim ⟨0, ['>'], .declaration⟩
  | '<' :: '?' :: _ => .verbatim ⟨0, ['>'], .declaration⟩
  | '<' :: '/' :: c :: _ => if c.isAlpha then .endTag else .plain
  | '<' :: c :: _ => if c.isAlpha then .startTag else .plain
  | _ => .plain

/-- What the text begins with. -/
def front (s : Text) : Front :=
  match twig? s with
  | some v => .verbatim v
  | none => tagFront s

/-- Whether a run of plain text goes on with this character. -/
def isPlain (c : Char) : Bool := c != '<' && c != '{'

/-- Reads one token off a text that begins with `c`. -/
def step (c : Char) (r : Text) : Except Cut (Token × Text) :=
  match front (c :: r) with
  | .verbatim v => (v.take (c :: r)).map fun (text, rest) => (.text text, rest)
  | .startTag => startToken (c :: r) r
  | .endTag => endToken (c :: r) (r.drop 1)
  | .plain => .ok (.text (c :: r.takeWhile isPlain), r.dropWhile isPlain)

/-! ## Nothing is lost -/

theorem endTag?_append {s name trailing rest : Text}
    (h : endTag? s = some (name, trailing, rest)) : name ++ trailing ++ '>' :: rest = s := by
  unfold endTag? at h
  simp only at h
  split at h
  · cases h
  · rename_i c r hr
    simp only [Option.some.injEq, Prod.mk.injEq] at h
    obtain ⟨rfl, rfl, rfl⟩ := h
    have hc : c = '>' := by
      have := List.head?_dropWhile_not (p := (· != '>')) (l := s.dropWhile isNameChar)
      rw [hr] at this
      simpa using this
    have h1 := List.takeWhile_append_dropWhile (p := (· != '>')) (l := s.dropWhile isNameChar)
    have h2 := List.takeWhile_append_dropWhile (p := isNameChar) (l := s)
    rw [hr, hc] at h1
    rw [List.append_assoc, h1, h2]

theorem rawContentOnto_append {tag seen s a b : Text}
    (h : rawContentOnto tag seen s = some (a, b)) : a ++ b = seen.reverse ++ s := by
  induction s generalizing seen with
  | nil => simp [rawContentOnto] at h
  | cons c r ih =>
    simp only [rawContentOnto] at h
    split at h
    · simp_all
    · rw [ih h]; simp

theorem rawContentOnto_startsClose {tag seen s a b : Text}
    (h : rawContentOnto tag seen s = some (a, b)) : startsClose tag b = true := by
  induction s generalizing seen with
  | nil => simp [rawContentOnto] at h
  | cons c r ih =>
    simp only [rawContentOnto] at h
    split at h
    · simp_all
    · exact ih h

theorem startsClose_append {tag s : Text} (h : startsClose tag s = true) :
    ['<', '/'] ++ s.drop 2 = s := by
  unfold startsClose at h
  split at h
  · rfl
  · cases h

theorem rawElement_append {tagStart s rest : Text} {start : StartTag} {t : Token}
    (h : rawElement tagStart start s = .ok (t, rest)) : t.render ++ rest = start.render ++ s := by
  unfold rawElement at h
  split at h
  · cases h
  · rename_i content close hc
    split at h
    · cases h
    · rename_i he
      simp only [Except.ok.injEq, Prod.mk.injEq] at h
      obtain ⟨rfl, rfl⟩ := h
      have h1 := endTag?_append he
      have h2 : content ++ close = s := by simpa using rawContentOnto_append hc
      have h3 := startsClose_append (rawContentOnto_startsClose hc)
      rw [← h2, ← h3, ← h1]
      simp [Token.render, Closing.render]

theorem startToken_append {tagStart s rest : Text} {t : Token}
    (h : startToken tagStart s = .ok (t, rest)) : t.render ++ rest = '<' :: s := by
  unfold startToken at h
  split at h
  · cases h
  · rename_i found hf
    have h1 := attributes_append hf
    have h2 := List.takeWhile_append_dropWhile (p := isNameChar) (l := s)
    rw [← h1] at h2
    simp only at h
    generalize s.takeWhile isNameChar = tag at h h2
    subst h2
    split at h
    · rw [rawElement_append h]
      simp [StartTag.render]
    · simp only [Except.ok.injEq, Prod.mk.injEq] at h
      obtain ⟨rfl, rfl⟩ := h
      simp [Token.render, StartTag.render]

theorem endToken_append {tagStart s rest : Text} {t : Token}
    (h : endToken tagStart s = .ok (t, rest)) : t.render ++ rest = '<' :: '/' :: s := by
  unfold endToken at h
  split at h
  · cases h
  · rename_i he
    simp only [Except.ok.injEq, Prod.mk.injEq] at h
    obtain ⟨rfl, rfl⟩ := h
    rw [← endTag?_append he]
    simp [Token.render, Closing.render]

theorem tagFront_startTag {c : Char} {r : Text} (h : tagFront (c :: r) = .startTag) : c = '<' := by
  unfold tagFront at h
  split at h <;> simp_all

theorem tagFront_endTag {c : Char} {r : Text} (h : tagFront (c :: r) = .endTag) :
    c = '<' ∧ '/' :: r.drop 1 = r := by
  unfold tagFront at h
  split at h
  · cases h
  · cases h
  · cases h
  · rename_i hs
    simp_all
  · split at h <;> cases h
  · cases h

theorem tagFront_verbatim {s : Text} {v : Verbatim} (h : tagFront s = .verbatim v) :
    v.stop ≠ [] := by
  unfold tagFront at h
  split at h
  · cases h; simp
  · cases h; simp
  · cases h; simp
  · split at h <;> cases h
  · split at h <;> cases h
  · cases h

theorem front_verbatim {s : Text} {v : Verbatim} (h : front s = .verbatim v) : v.stop ≠ [] := by
  unfold front at h
  split at h
  · rename_i ht
    cases h
    exact twig?_stop ht
  · exact tagFront_verbatim h

theorem front_eq_tagFront {s : Text} (h : ∀ v, front s ≠ .verbatim v) : front s = tagFront s := by
  unfold front at h ⊢
  split
  · simp_all
  · rfl

theorem step_append {c : Char} {r rest : Text} {t : Token} (h : step c r = .ok (t, rest)) :
    t.render ++ rest = c :: r := by
  unfold step at h
  split at h
  · simp only [Except.map] at h
    split at h
    · cases h
    · rename_i p hp
      simp only [Except.ok.injEq, Prod.mk.injEq] at h
      obtain ⟨rfl, rfl⟩ := h
      exact Verbatim.take_append hp
  · rename_i hf
    rw [front_eq_tagFront (by simp [hf])] at hf
    rw [startToken_append h, tagFront_startTag hf]
  · rename_i hf
    rw [front_eq_tagFront (by simp [hf])] at hf
    obtain ⟨h1, h2⟩ := tagFront_endTag hf
    rw [endToken_append h, h1, h2]
  · simp only [Except.ok.injEq, Prod.mk.injEq] at h
    obtain ⟨rfl, rfl⟩ := h
    simp [Token.render]

theorem startToken_ne_nil {tagStart s rest : Text} {t : Token}
    (h : startToken tagStart s = .ok (t, rest)) : t.render ≠ [] := by
  unfold startToken at h
  split at h
  · cases h
  · simp only at h
    split at h
    · unfold rawElement at h
      split at h
      · cases h
      · split at h
        · cases h
        · simp only [Except.ok.injEq, Prod.mk.injEq] at h
          obtain ⟨rfl, -⟩ := h
          simp [Token.render, StartTag.render]
    · simp only [Except.ok.injEq, Prod.mk.injEq] at h
      obtain ⟨rfl, -⟩ := h
      simp [Token.render, StartTag.render]

theorem step_ne_nil {c : Char} {r rest : Text} {t : Token} (h : step c r = .ok (t, rest)) :
    t.render ≠ [] := by
  unfold step at h
  split at h
  · rename_i hv
    simp only [Except.map] at h
    split at h
    · cases h
    · rename_i p hp
      simp only [Except.ok.injEq, Prod.mk.injEq] at h
      obtain ⟨rfl, -⟩ := h
      exact Verbatim.take_ne_nil (front_verbatim hv) hp
  · exact startToken_ne_nil h
  · unfold endToken at h
    split at h
    · cases h
    · simp only [Except.ok.injEq, Prod.mk.injEq] at h
      obtain ⟨rfl, -⟩ := h
      simp [Token.render, Closing.render]
  · simp only [Except.ok.injEq, Prod.mk.injEq] at h
    obtain ⟨rfl, -⟩ := h
    simp [Token.render]

theorem step_length {c : Char} {r rest : Text} {t : Token} (h : step c r = .ok (t, rest)) :
    rest.length < (c :: r).length :=
  length_lt_of_append (step_append h) (step_ne_nil h)

/-! ## The whole source -/

/-- Reads a source into its tokens; `seen` holds the tokens read so far, last first. -/
def tokensOnto (seen : List Token) (s : Text) : Except Cut (List Token) :=
  match s with
  | [] => .ok seen.reverse
  | c :: r =>
    match _hs : step c r with
    | .error cut => .error cut
    | .ok (t, rest) => tokensOnto (t :: seen) rest
termination_by s.length
decreasing_by exact step_length _hs

def tokens (s : Text) : Except Cut (List Token) := tokensOnto [] s

theorem tokensOnto_render {seen ts : List Token} {s : Text} (h : tokensOnto seen s = .ok ts) :
    ts.flatMap Token.render = seen.reverse.flatMap Token.render ++ s := by
  fun_induction tokensOnto seen s with
  | case1 => simp_all
  | case2 => simp at h
  | case3 seen c r t rest hs ih =>
    rw [ih h, ← step_append hs]
    simp

/-- The tokens of a source are written as the source. -/
theorem tokens_render {ts : List Token} {s : Text} (h : tokens s = .ok ts) :
    ts.flatMap Token.render = s := by
  simpa using tokensOnto_render h

end ExtensionAudit.Markup
