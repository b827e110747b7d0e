import ExtensionAudit.Proofs.Markup.Front
import ExtensionAudit.Proofs.Markup.TagForm
/-
  Tokens as a grammar. Every token but plain text is read back from its own text
  whatever stands behind it; which tokens these are is said by the forms of their
  parts. A text is read back if what stands behind it begins with the same
  character as before.

  Main statements: `readsBefore_iff_formed` and `readsBefore_of_head?_eq`.
-/

namespace ExtensionAudit.Markup

/-! ## End tags -/

/-- Whether a text can stand between the name of an end tag and its `>`. -/
def IsEndTail (trailing : Text) : Prop :=
  Text.endsRun isNameChar trailing = true ∧ '>' ∉ trailing

theorem IsEndTail.endsRun {trailing : Text} (h : IsEndTail trailing) (rest : Text) :
    Text.endsRun isNameChar (trailing ++ '>' :: rest) = true := by
  cases trailing with
  | nil =>
    show (!isNameChar '>') = true
    decide
  | cons c t => exact h.1

theorem endTag?_eq_some_iff {s name trailing rest : Text} :
    endTag? s = some (name, trailing, rest) ↔
      s = name ++ (trailing ++ '>' :: rest) ∧ (∀ c ∈ name, isNameChar c = true) ∧
        IsEndTail trailing := by
  constructor
  · intro h
    have happend := endTag?_append h
    unfold endTag? at h
    simp only at h
    split at h
    · cases h
    · rename_i c r hr
      simp only [Option.some.injEq, Prod.mk.injEq] at h
      obtain ⟨rfl, rfl, rfl⟩ := h
      refine ⟨by rw [← List.append_assoc, happend], fun _ => Text.mem_takeWhile, ?_, ?_⟩
      · have hrun := Text.endsRun_dropWhile isNameChar s
        unfold Text.endsRun at hrun ⊢
        cases hd : s.dropWhile isNameChar with
        | nil => rfl
        | cons d r' =>
          rw [hd] at hrun
          rw [List.takeWhile_cons]
          split
          · simpa using hrun
          · rfl
      · intro hgt
        simpa using Text.mem_takeWhile hgt
  · rintro ⟨rfl, hname, htail⟩
    have hrun := htail.endsRun rest
    obtain ⟨-, hgt⟩ := htail
    have ht : ∀ c ∈ trailing, (c != '>') = true := by
      intro c hc
      simpa using fun heq : c = '>' => hgt (heq ▸ hc)
    have hstop : Text.endsRun (· != '>') ('>' :: rest) = true := rfl
    simp only [endTag?, Text.dropWhile_run hname hrun, Text.takeWhile_run hname hrun,
      Text.dropWhile_run ht hstop, Text.takeWhile_run ht hstop]

/-! ## Raw text -/

theorem toLower_ne_gt {c : Char} (h : isNameChar c = true) : c.toLower ≠ '>' := by
  intro heq
  unfold Char.toLower at heq
  split at heq
  · rename_i hu
    have hval : c.val + ('a'.val - 'A'.val) = '>'.val := congrArg Char.val heq
    have hupper : 65 ≤ c.val.toNat ∧ c.val.toNat ≤ 90 := ⟨hu.1, hu.2⟩
    have hnat := congrArg UInt32.toNat hval
    rw [UInt32.toNat_add] at hnat
    have hshift : ('a'.val - 'A'.val).toNat = 32 := by decide
    have hgt : '>'.val.toNat = 62 := by decide
    omega
  · subst heq
    exact absurd h (by decide)

theorem not_sameIgnoringCase_of_gt {tag w : Text} (htag : ∀ c ∈ tag, isNameChar c = true)
    (hw : '>' ∈ w) : Text.sameIgnoringCase w tag = false := by
  cases h : Text.sameIgnoringCase w tag with
  | false => rfl
  | true =>
    have hmap : w.map Char.toLower = tag.map Char.toLower := by
      simpa [Text.sameIgnoringCase] using h
    have hmem : Char.toLower '>' ∈ tag.map Char.toLower := hmap ▸ List.mem_map_of_mem hw
    obtain ⟨c, hc, heq⟩ := List.mem_map.mp hmem
    exact absurd heq (toLower_ne_gt (htag c hc))

/-- What begins with an end tag is the same whatever stands behind the next `>`. -/
theorem startsClose_closed {tag : Text} (htag : ∀ c ∈ tag, isNameChar c = true) (u rest : Text) :
    startsClose tag (u ++ '>' :: rest) = startsClose tag (u ++ ['>']) := by
  match u with
  | [] => rfl
  | [c] =>
    simp only [List.cons_append, List.nil_append]
    unfold startsClose
    split <;> split <;> simp_all
  | c :: d :: u =>
    by_cases hcd : c = '<' ∧ d = '/'
    · obtain ⟨rfl, rfl⟩ := hcd
      simp only [List.cons_append, startsClose]
      by_cases hlen : tag.length ≤ u.length
      · rw [List.take_append_of_le_length hlen, List.take_append_of_le_length hlen]
      · -- the window reaches the `>`, which belongs to no name
        have hgt (r : Text) : '>' ∈ (u ++ '>' :: r).take tag.length := by
          obtain ⟨n, hn⟩ := Nat.exists_eq_add_of_lt (Nat.lt_of_not_le hlen)
          rw [hn, Nat.add_assoc, List.take_length_add_append]
          simp
        rw [not_sameIgnoringCase_of_gt htag (hgt rest), not_sameIgnoringCase_of_gt htag (hgt [])]
    · simp only [List.cons_append]
      unfold startsClose
      split <;> split <;> simp_all

/-- The content of a raw text element is all in front of the first end tag of its name. -/
theorem rawContentOnto_eq_some_iff {tag seen s a b : Text} :
    rawContentOnto tag seen s = some (a, b) ↔
      ∃ content, a = seen.reverse ++ content ∧ s = content ++ b ∧ startsClose tag b = true ∧
        ∀ v, v <:+ content → v ≠ [] → startsClose tag (v ++ b) = false := by
  induction s generalizing seen with
  | nil =>
    simp only [rawContentOnto, reduceCtorEq, false_iff]
    rintro ⟨content, -, hs, hb, -⟩
    obtain ⟨-, rfl⟩ := List.append_eq_nil_iff.mp hs.symm
    simp [startsClose] at hb
  | cons c r ih =>
    simp only [rawContentOnto]
    -- the content ends here, or `c` belongs to it and no end tag begins with it
    cases hc : startsClose tag (c :: r) with
    | true =>
      simp only [if_true, Option.some.injEq, Prod.mk.injEq]
      constructor
      · rintro ⟨rfl, rfl⟩
        exact ⟨[], by simp, rfl, hc, fun v hv hne => absurd (List.suffix_nil.mp hv) hne⟩
      · rintro ⟨content, rfl, hs, -, hno⟩
        cases content with
        | nil => exact ⟨by simp, hs⟩
        | cons d content =>
          have := hno (d :: content) List.suffix_rfl (List.cons_ne_nil d content)
          rw [← hs, hc] at this
          cases this
    | false =>
      simp only [Bool.false_eq_true, if_false, ih]
      constructor
      · rintro ⟨content, rfl, rfl, hb, hno⟩
        refine ⟨c :: content, by simp, rfl, hb, fun v hv hne => ?_⟩
        rcases List.suffix_cons_iff.mp hv with rfl | hv
        · exact hc
        · exact hno v hv hne
      · rintro ⟨content, rfl, hs, hb, hno⟩
        cases content with
        | nil =>
          rw [List.nil_append] at hs
          rw [hs, hb] at hc
          cases hc
        | cons d content =>
          obtain ⟨rfl, rfl⟩ := List.cons_eq_cons.mp hs
          exact ⟨content, by simp, rfl, hb, fun v hv =>
            hno v (hv.trans (List.suffix_cons c content))⟩

/-- Whether the content of a raw text element is read up to here, when `close` stands behind it. -/
def contentEnds (tag content close : Text) : Bool :=
  rawContentOnto tag [] (content ++ close) = some (content, close)

theorem contentEnds_iff {tag content close : Text} :
    contentEnds tag content close = true ↔
      startsClose tag close = true ∧
        ∀ v, v <:+ content → v ≠ [] → startsClose tag (v ++ close) = false := by
  simp only [contentEnds, decide_eq_true_eq, rawContentOnto_eq_some_iff, List.reverse_nil,
    List.nil_append]
  constructor
  · rintro ⟨_, rfl, -, h⟩
    exact h
  · exact fun h => ⟨content, rfl, rfl, h⟩

theorem contentEnds_closed {tag : Text} (htag : ∀ c ∈ tag, isNameChar c = true)
    (content u rest : Text) :
    contentEnds tag content (u ++ '>' :: rest) = contentEnds tag content (u ++ ['>']) := by
  have hclose (v : Text) :
      startsClose tag (v ++ (u ++ '>' :: rest)) = startsClose tag (v ++ (u ++ ['>'])) := by
    have h := startsClose_closed htag (v ++ u) rest
    simpa only [List.append_assoc] using h
  rw [Bool.eq_iff_iff, contentEnds_iff, contentEnds_iff, startsClose_closed htag u rest]
  simp only [hclose]

theorem Closing.explicit_render_append (name trailing rest : Text) :
    (Closing.explicit name trailing).render ++ rest =
      ('<' :: '/' :: name ++ trailing) ++ '>' :: rest := by
  simp [Closing.render]

theorem rawElement_eq_ok_iff {tagStart s rest : Text} {start : StartTag} {t : Token}
    (htag : ∀ c ∈ start.tag, isNameChar c = true) :
    rawElement tagStart start s = .ok (t, rest) ↔
      ∃ content name trailing, t = .rawElement start content name trailing ∧
        s = content ++ ((Closing.explicit name trailing).render ++ rest) ∧
        contentEnds start.tag content (Closing.explicit name trailing).render = true ∧
        (∀ c ∈ name, isNameChar c = true) ∧ IsEndTail trailing := by
  have hends (content name trailing : Text) :
      contentEnds start.tag content ((Closing.explicit name trailing).render ++ rest) =
        contentEnds start.tag content (Closing.explicit name trailing).render := by
    rw [Closing.explicit_render_append, contentEnds_closed htag]
    simp [Closing.render]
  constructor
  · intro h
    unfold rawElement at h
    split at h
    · cases h
    · -- `close` begins with the `</` that the end tag is read behind
      rename_i content close hc
      split at h
      · cases h
      · rename_i name trailing rest' he
        simp only [Except.ok.injEq, Prod.mk.injEq] at h
        obtain ⟨rfl, rfl⟩ := h
        obtain ⟨hdrop, hname, htail⟩ := endTag?_eq_some_iff.mp he
        have hclose : close = (Closing.explicit name trailing).render ++ rest' := by
          rw [← startsClose_append (rawContentOnto_startsClose hc), hdrop]
          simp [Closing.render]
        have hs : s = content ++ close := by simpa using (rawContentOnto_append hc).symm
        refine ⟨content, name, trailing, rfl, by rw [hs, hclose], ?_, hname, htail⟩
        rw [← hends, ← hclose, contentEnds, ← hs, hc]
        simp
  · rintro ⟨content, name, trailing, rfl, rfl, hcontent, hname, htail⟩
    have hc : rawContentOnto start.tag [] (content ++ ((Closing.explicit name trailing).render ++
        rest)) = some (content, (Closing.explicit name trailing).render ++ rest) := by
      rw [← hends] at hcontent
      simpa [contentEnds] using hcontent
    have he : endTag? (((Closing.explicit name trailing).render ++ rest).drop 2) =
        some (name, trailing, rest) :=
      endTag?_eq_some_iff.mpr ⟨by simp [Closing.render], hname, htail⟩
    unfold rawElement
    rw [hc]
    simp only [he]

/-! ## Start tags -/

def StartTag.body (t : StartTag) : Text :=
  t.tag ++ (t.attributes.flatMap Attribute.render ++ t.tail)

theorem StartTag.render_eq (t : StartTag) : t.render = '<' :: t.body := by
  simp [StartTag.render, StartTag.body]

theorem endsRun_tail {p : Char → Bool} {s tail : Text} {selfClosing : Bool}
    (htail : IsTagTail selfClosing tail) (rest : Text) :
    Text.endsRun p (s ++ (tail ++ rest)) = Text.endsRun p (s ++ tail) := by
  obtain ⟨u, rfl⟩ := htail.exists_append
  cases s with
  | nil => cases u <;> rfl
  | cons c s => rfl

/-- What becomes of a start tag that was read: raw text follows, or the token is complete. -/
def startTagToken (tagStart : Text) (t : StartTag) (selfClosing : Bool) (rest : Text) :
    Except Cut (Token × Text) :=
  if !selfClosing && !isVoid t.tag && isRawText t.tag then rawElement tagStart t rest
  else .ok (.startTag t selfClosing, rest)

theorem startToken_complete {t : StartTag} {selfClosing : Bool} (hf : t.Formed selfClosing)
    (hk : t.keptApart = true) (tagStart rest : Text) :
    startToken tagStart (t.body ++ rest) = startTagToken tagStart t selfClosing rest := by
  simp only [StartTag.keptApart, Bool.and_eq_true] at hk
  have hsplit : t.body ++ rest =
      t.tag ++ (t.attributes.flatMap Attribute.render ++ (t.tail ++ rest)) := by
    simp [StartTag.body]
  have hrun : Text.endsRun isNameChar
      (t.attributes.flatMap Attribute.render ++ (t.tail ++ rest)) = true := by
    rw [endsRun_tail hf.tail, hk.1]
  have hattrs : attributes tagStart (t.attributes.flatMap Attribute.render ++ (t.tail ++ rest)) =
      .ok ⟨t.attributes, t.tail, selfClosing, rest⟩ :=
    attributes_eq_ok_iff.mpr ⟨rfl, hf.attributes, hk.2, hf.tail⟩
  rw [hsplit, startToken, Text.dropWhile_run hf.name.isNameChar hrun,
    Text.takeWhile_run hf.name.isNameChar hrun, hattrs]
  rfl

theorem isTagName_takeWhile {s : Text} (hs : s.head?.any Char.isAlpha = true) :
    IsTagName (s.takeWhile isNameChar) := by
  cases s with
  | nil => cases hs
  | cons c r =>
    have hc : c.isAlpha = true := by simpa using hs
    refine ⟨c, r.takeWhile isNameChar, ?_, hc, fun _ => Text.mem_takeWhile⟩
    simp [isNameChar_of_isAlpha hc]

/-- A start tag that is read has its form, and its name ends in front of the pieces. -/
theorem attributes_sound {tagStart s : Text} {found : TagEnd}
    (hs : s.head?.any Char.isAlpha = true)
    (h : attributes tagStart (s.dropWhile isNameChar) = .ok found) :
    StartTag.Formed ⟨s.takeWhile isNameChar, found.attributes, found.tail⟩ found.selfClosing ∧
      StartTag.keptApart ⟨s.takeWhile isNameChar, found.attributes, found.tail⟩ = true ∧
      s = StartTag.body ⟨s.takeWhile isNameChar, found.attributes, found.tail⟩ ++ found.rest := by
  obtain ⟨hdrop, hforms, hapart, htail⟩ := attributes_eq_ok_iff.mp h
  refine ⟨⟨isTagName_takeWhile hs, hforms, htail⟩, ?_, ?_⟩
  · have hrun := Text.endsRun_dropWhile isNameChar s
    rw [hdrop, endsRun_tail htail] at hrun
    simp [StartTag.keptApart, hrun, hapart]
  · have hsplit := List.takeWhile_append_dropWhile (p := isNameChar) (l := s)
    rw [hdrop] at hsplit
    simpa [StartTag.body] using hsplit.symm

theorem startToken_sound {tagStart s rest : Text} {tok : Token}
    (hs : s.head?.any Char.isAlpha = true) (h : startToken tagStart s = .ok (tok, rest)) :
    ∃ t selfClosing r, t.Formed selfClosing ∧ t.keptApart = true ∧
      startTagToken tagStart t selfClosing r = .ok (tok, rest) := by
  unfold startToken at h
  split at h
  · cases h
  · rename_i found hfound
    obtain ⟨hform, hapart, -⟩ := attributes_sound hs hfound
    exact ⟨_, found.selfClosing, found.rest, hform, hapart, h⟩

/-! ## All tokens -/

/-- The form of a token that is no text, whatever follows it. -/
inductive Token.Formed : Token → Prop where
  | startTag {start : StartTag} {selfClosing : Bool} : start.Formed selfClosing →
      start.keptApart = true →
      (!selfClosing && !isVoid start.tag && isRawText start.tag) = false →
      Formed (.startTag start selfClosing)
  | rawElement {start : StartTag} {content name trailing : Text} : start.Formed false →
      start.keptApart = true → isVoid start.tag = false → isRawText start.tag = true →
      contentEnds start.tag content (Closing.explicit name trailing).render = true →
      (∀ c ∈ name, isNameChar c = true) → IsEndTail trailing →
      Formed (.rawElement start content name trailing)
  | endTag {name trailing : Text} : IsTagName name → IsEndTail trailing →
      Formed (.endTag name trailing)

/-- Whether a token is read off its text when `rest` stands behind it. -/
def Token.ReadsBefore (rest : Text) (t : Token) : Prop :=
  ∃ c r, t.render = c :: r ∧ step c (r ++ rest) = .ok (t, rest)

theorem step_eq_ok_iff {c : Char} {s rest : Text} {t : Token} :
    step c s = .ok (t, rest) ↔ c :: s = t.render ++ rest ∧ t.ReadsBefore rest := by
  constructor
  · intro h
    have happend := step_append h
    obtain ⟨c', r, hr⟩ := List.exists_cons_of_ne_nil (step_ne_nil h)
    rw [hr, List.cons_append, List.cons_eq_cons] at happend
    obtain ⟨rfl, rfl⟩ := happend
    exact ⟨by rw [hr, List.cons_append], c', r, hr, h⟩
  · rintro ⟨hs, c', r, hr, h⟩
    rw [hr, List.cons_append, List.cons_eq_cons] at hs
    obtain ⟨rfl, rfl⟩ := hs
    exact h

theorem IsTagName.cons_body {t : StartTag} (h : IsTagName t.tag) :
    ∃ c r, t.body = c :: r ∧ c.isAlpha = true := by
  obtain ⟨c, r, htag, hc, -⟩ := h
  exact ⟨c, _, by rw [StartTag.body, htag, List.cons_append], hc⟩

theorem step_startTag {t : StartTag} {selfClosing : Bool} (hf : t.Formed selfClosing)
    (hk : t.keptApart = true) (rest : Text) :
    step '<' (t.body ++ rest) =
      startTagToken ('<' :: (t.body ++ rest)) t selfClosing rest := by
  have hfront : front ('<' :: (t.body ++ rest)) = .startTag := by
    obtain ⟨c, r, hbody, hc⟩ := hf.name.cons_body
    rw [front_tag, hbody, List.cons_append, tagFront_alpha hc]
  unfold step
  rw [hfront]
  exact startToken_complete hf hk _ rest

theorem Token.Formed.readsBefore {t : Token} (h : t.Formed) (rest : Text) :
    t.ReadsBefore rest := by
  cases h with
  | startTag hf hk hraw =>
    rename_i start selfClosing
    refine ⟨'<', start.body, start.render_eq, ?_⟩
    rw [step_startTag hf hk, startTagToken, hraw]
    rfl
  | rawElement hf hk hvoid hraw hcontent hname htail =>
    rename_i start content name trailing
    refine ⟨'<', start.body ++ (content ++ (Closing.explicit name trailing).render), ?_, ?_⟩
    · simp [Token.render, start.render_eq]
    · rw [List.append_assoc, step_startTag hf hk, startTagToken, hvoid, hraw]
      refine (rawElement_eq_ok_iff hf.name.isNameChar).mpr
        ⟨content, name, trailing, rfl, List.append_assoc _ _ _, hcontent, hname, htail⟩
  | endTag hname htail =>
    rename_i name trailing
    refine ⟨'<', '/' :: name ++ trailing ++ ['>'], rfl, ?_⟩
    have hend : endTag? (name ++ trailing ++ ['>'] ++ rest) = some (name, trailing, rest) :=
      endTag?_eq_some_iff.mpr ⟨by simp, hname.isNameChar, htail⟩
    have hfront : front ('<' :: ('/' :: name ++ trailing ++ ['>'] ++ rest)) = .endTag := by
      obtain ⟨c, r, rfl, hc, -⟩ := hname
      rw [front_tag]
      exact tagFront_slash_alpha hc
    unfold step
    rw [hfront]
    simp only [List.cons_append, List.drop_succ_cons, List.drop_zero, endToken, hend]

theorem startTagToken_sound {tagStart r rest : Text} {start : StartTag} {selfClosing : Bool}
    {t : Token} (hf : start.Formed selfClosing) (hk : start.keptApart = true)
    (h : startTagToken tagStart start selfClosing r = .ok (t, rest)) : t.Formed := by
  unfold startTagToken at h
  split at h
  · rename_i hraw
    simp only [Bool.and_eq_true, Bool.not_eq_true'] at hraw
    obtain ⟨⟨rfl, hvoid⟩, hraw⟩ := hraw
    obtain ⟨content, name, trailing, rfl, -, hcontent, hname, htail⟩ :=
      (rawElement_eq_ok_iff hf.name.isNameChar).mp h
    exact .rawElement hf hk hvoid hraw hcontent hname htail
  · rename_i hraw
    simp only [Except.ok.injEq, Prod.mk.injEq] at h
    obtain ⟨rfl, -⟩ := h
    exact .startTag hf hk (by simpa using hraw)

theorem step_sound {c : Char} {s rest : Text} {t : Token} (h : step c s = .ok (t, rest)) :
    (∃ content, t = .text content) ∨ t.Formed := by
  unfold step at h
  split at h
  · obtain ⟨⟨text, r⟩, -, he⟩ := exists_of_map_eq_ok h
    simp only [Prod.mk.injEq] at he
    exact .inl ⟨text, he.1.symm⟩
  · rename_i hfront
    rw [front_eq_tagFront (by simp [hfront])] at hfront
    obtain rfl := tagFront_startTag hfront
    obtain ⟨d, r, rfl, hd⟩ := exists_of_tagFront_startTag hfront
    obtain ⟨start, selfClosing, r', hf, hk, hstart⟩ :=
      startToken_sound (by simpa using hd) h
    exact .inr (startTagToken_sound hf hk hstart)
  · rename_i hfront
    rw [front_eq_tagFront (by simp [hfront])] at hfront
    obtain ⟨rfl, -⟩ := tagFront_endTag hfront
    obtain ⟨d, r, rfl, hd⟩ := exists_of_tagFront_endTag hfront
    unfold endToken at h
    split at h
    · cases h
    · rename_i name trailing rest' he
      simp only [Except.ok.injEq, Prod.mk.injEq] at h
      obtain ⟨rfl, -⟩ := h
      obtain ⟨hs, hname, htail⟩ := endTag?_eq_some_iff.mp he
      refine .inr (.endTag ?_ htail)
      simp only [List.drop_succ_cons, List.drop_zero] at hs
      cases name with
      | nil =>
        -- the letter behind the `</` is part of the name
        have hrun := htail.1
        cases trailing with
        | nil =>
          obtain ⟨rfl, -⟩ := List.cons_eq_cons.mp hs
          exact absurd hd (by decide)
        | cons e trailing =>
          obtain ⟨rfl, -⟩ := List.cons_eq_cons.mp hs
          simp [Text.endsRun, isNameChar_of_isAlpha hd] at hrun
      | cons e name =>
        obtain ⟨rfl, -⟩ := List.cons_eq_cons.mp hs
        exact ⟨_, name, rfl, hd, fun c hc => hname c (List.mem_cons_of_mem _ hc)⟩
  · simp only [Except.ok.injEq, Prod.mk.injEq] at h
    exact .inl ⟨_, h.1.symm⟩

/-- Whether a token is read does not depend on the rest, if the token is no text. -/
theorem readsBefore_iff_formed {t : Token} (ht : ∀ content, t ≠ .text content) (rest : Text) :
    t.ReadsBefore rest ↔ t.Formed := by
  refine ⟨fun ⟨c, r, _, h⟩ => ?_, fun h => h.readsBefore rest⟩
  exact (step_sound h).resolve_left fun ⟨content, heq⟩ => ht content heq

theorem readsBefore_text_iff {content rest : Text} :
    (Token.text content).ReadsBefore rest ↔
      ∃ c r, content = c :: r ∧
        ((∃ v, front (c :: (r ++ rest)) = .verbatim v ∧
            v.take (c :: (r ++ rest)) = .ok (c :: r, rest)) ∨
          (front (c :: (r ++ rest)) = .plain ∧ (∀ d ∈ r, isPlain d = true) ∧
            Text.endsRun isPlain rest = true)) := by
  constructor
  · rintro ⟨c, r, hrender, hstep⟩
    simp only [Token.render] at hrender
    subst hrender
    refine ⟨c, r, rfl, ?_⟩
    unfold step at hstep
    split at hstep
    · rename_i v hfront
      obtain ⟨⟨text, rest₂⟩, htake, he⟩ := exists_of_map_eq_ok hstep
      simp only [Prod.mk.injEq, Token.text.injEq] at he
      obtain ⟨rfl, rfl⟩ := he
      exact .inl ⟨v, hfront, htake⟩
    · rename_i hfront
      -- a start tag is read as a start tag or a raw element, never as text
      rw [front_eq_tagFront (by simp [hfront])] at hfront
      obtain rfl := tagFront_startTag hfront
      obtain ⟨d, r', hr, hd⟩ := exists_of_tagFront_startTag hfront
      obtain ⟨start, selfClosing, r', hf, hk, hstart⟩ :=
        startToken_sound (by simpa [hr] using hd) hstep
      cases startTagToken_sound hf hk hstart
    · unfold endToken at hstep
      split at hstep <;> simp at hstep
    · rename_i hfront
      simp only [Except.ok.injEq, Prod.mk.injEq, Token.text.injEq, List.cons_eq_cons, true_and]
        at hstep
      obtain ⟨htake, hdrop⟩ := hstep
      exact .inr ⟨hfront, fun d hd => Text.mem_takeWhile (htake ▸ hd),
        hdrop ▸ Text.endsRun_dropWhile isPlain _⟩
  · rintro ⟨c, r, rfl, ⟨v, hfront, htake⟩ | ⟨hfront, hplain, hrun⟩⟩
    · exact ⟨c, r, rfl, by simp [step, hfront, htake, Except.map]⟩
    · refine ⟨c, r, rfl, ?_⟩
      simp only [step, hfront, Text.takeWhile_run hplain hrun, Text.dropWhile_run hplain hrun]

theorem readsBefore_of_take {c : Char} {r rest : Text} {v : Verbatim}
    (hfront : front (c :: (r ++ rest)) = .verbatim v)
    (htake : v.take (c :: (r ++ rest)) = .ok (c :: r, rest)) (rest' : Text) :
    (Token.text (c :: r)).ReadsBefore rest' := by
  have hfront' := front_verbatim_rest hfront htake rest'
  have htake' := Verbatim.take_rest (front_verbatim hfront) htake rest'
  exact readsBefore_text_iff.mpr ⟨c, r, rfl, .inl ⟨v, hfront', htake'⟩⟩

theorem readsBefore_text_of_head?_eq {content rest rest' : Text}
    (h : (Token.text content).ReadsBefore rest) (hhead : rest'.head? = rest.head?) :
    (Token.text content).ReadsBefore rest' := by
  obtain ⟨c, r, rfl, ⟨v, hfront, htake⟩ | ⟨hfront, hplain, hrun⟩⟩ := readsBefore_text_iff.mp h
  · exact readsBefore_of_take hfront htake rest'
  · have hrun' : Text.endsRun isPlain rest' = true := by rwa [Text.endsRun, hhead]
    exact readsBefore_text_iff.mpr
      ⟨c, r, rfl, .inr ⟨front_plain_rest hrun hhead hfront, hplain, hrun'⟩⟩

/-- A token is read in front of any rest that begins like the one it was read in front of. -/
theorem readsBefore_of_head?_eq {t : Token} {rest rest' : Text} (h : t.ReadsBefore rest)
    (hhead : rest'.head? = rest.head?) : t.ReadsBefore rest' := by
  cases t with
  | text content => exact readsBefore_text_of_head?_eq h hhead
  | _ =>
    rw [readsBefore_iff_formed (by simp)] at h ⊢
    exact h

end ExtensionAudit.Markup
