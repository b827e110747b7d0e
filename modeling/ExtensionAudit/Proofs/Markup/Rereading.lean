import ExtensionAudit.Proofs.Markup.RoundTrip
import ExtensionAudit.Proofs.Markup.TokenForm
/-
  Reading what an edit has written. Every token is read in front of those behind
  it, and an edit that leaves the tags in their forms keeps it so: a text stays in
  front of something that begins as before, and a tag is read in front of
  anything.

  Main statements: `tokens_eq_ok_iff` and `TagEdit.Lawful.tokens_written`, the
  tokens of the edited text are the edited tokens.
-/

namespace ExtensionAudit.Markup

/-- Whether each token is read off its text in front of those behind it. -/
def ReadsAll : List Token → Prop
  | [] => True
  | t :: ts => t.ReadsBefore (ts.flatMap Token.render) ∧ ReadsAll ts

theorem tokensOnto_step {seen : List Token} {c : Char} {s rest : Text} {t : Token}
    (h : step c s = .ok (t, rest)) :
    tokensOnto seen (c :: s) = tokensOnto (t :: seen) rest := by
  rw [tokensOnto]
  split
  · rename_i herr
    rw [h] at herr
    cases herr
  · rename_i hok
    rw [h, Except.ok.injEq, Prod.mk.injEq] at hok
    rw [hok.1, hok.2]

theorem tokensOnto_append (seen before : List Token) (s : Text) :
    tokensOnto (seen ++ before) s = (tokensOnto seen s).map (before.reverse ++ ·) := by
  fun_induction tokensOnto seen s with
  | case1 seen => simp [tokensOnto, Except.map]
  | case2 seen c r cut hs =>
    rw [tokensOnto]
    split <;> simp_all [Except.map]
  | case3 seen c r t rest hs ih =>
    rw [tokensOnto_step hs]
    exact ih

theorem tokensOnto_eq (seen : List Token) (s : Text) :
    tokensOnto seen s = (tokens s).map (seen.reverse ++ ·) :=
  tokensOnto_append [] seen s

/-- Each token is read off its text in front of those behind it and the rest. -/
def ReadsUpTo (rest : Text) : List Token → Prop
  | [] => True
  | t :: ts => t.ReadsBefore (ts.flatMap Token.render ++ rest) ∧ ReadsUpTo rest ts

theorem ReadsUpTo.tokens {ts : List Token} {s : Text} (h : ReadsUpTo s ts) :
    tokens (ts.flatMap Token.render ++ s) = (tokens s).map (ts ++ ·) := by
  have honto (seen : List Token) :
      tokensOnto seen (ts.flatMap Token.render ++ s) = tokensOnto (ts.reverse ++ seen) s := by
    induction ts generalizing seen with
    | nil => rfl
    | cons t ts ih =>
      obtain ⟨⟨c, r, hrender, hstep⟩, hts⟩ := h
      rw [List.flatMap_cons, hrender, List.append_assoc, List.cons_append, tokensOnto_step hstep,
        ih hts (t :: seen)]
      simp
  rw [Markup.tokens, honto, tokensOnto_eq]
  simp

theorem tokensOnto_sound {seen ts : List Token} {s : Text} (h : tokensOnto seen s = .ok ts) :
    ∃ us, ts = seen.reverse ++ us ∧ s = us.flatMap Token.render ∧ ReadsAll us := by
  fun_induction tokensOnto seen s with
  | case1 seen =>
    simp only [Except.ok.injEq] at h
    exact ⟨[], by simp [h], rfl, trivial⟩
  | case2 => simp at h
  | case3 seen c r t rest hs ih =>
    obtain ⟨us, rfl, hrest, hus⟩ := ih h
    obtain ⟨hcr, ht⟩ := step_eq_ok_iff.mp hs
    rw [hrest] at hcr ht
    exact ⟨t :: us, by simp, hcr, ht, hus⟩

theorem tokensOnto_complete {seen us : List Token} (h : ReadsAll us) :
    tokensOnto seen (us.flatMap Token.render) = .ok (seen.reverse ++ us) := by
  induction us generalizing seen with
  | nil => simp [tokensOnto]
  | cons t us ih =>
    obtain ⟨⟨c, r, hrender, hstep⟩, hus⟩ := h
    rw [List.flatMap_cons, hrender, List.cons_append, tokensOnto_step hstep, ih hus]
    simp

/-- The tokens of a text are those it is written with, if each is read in front of the others. -/
theorem tokens_eq_ok_iff {s : Text} {ts : List Token} :
    tokens s = .ok ts ↔ s = ts.flatMap Token.render ∧ ReadsAll ts := by
  constructor
  · intro h
    obtain ⟨us, rfl, hs, hus⟩ := tokensOnto_sound h
    exact ⟨hs, hus⟩
  · rintro ⟨rfl, hts⟩
    exact tokensOnto_complete hts

theorem ReadsAll.formed {ts : List Token} (h : ReadsAll ts) :
    ∀ t ∈ ts, (∃ content, t = .text content) ∨ t.Formed := by
  induction ts with
  | nil => simp
  | cons t ts ih =>
    obtain ⟨⟨c, r, -, hstep⟩, hts⟩ := h
    intro u hu
    rcases List.mem_cons.mp hu with rfl | hu
    · exact step_sound hstep
    · exact ih hts u hu

theorem Token.Formed.start {t : Token} (h : t.Formed) {start : StartTag}
    (hs : t.start? = some start) : (∃ sc, start.Formed sc) ∧ start.keptApart = true := by
  cases h with
  | startTag hf hk _ =>
    cases hs
    exact ⟨⟨_, hf⟩, hk⟩
  | rawElement hf hk _ _ _ _ _ =>
    cases hs
    exact ⟨⟨_, hf⟩, hk⟩
  | endTag => cases hs

theorem startTag_of_tokens {s : Text} {ts : List Token} (h : tokens s = .ok ts) :
    ∀ t ∈ ts.filterMap Token.start?, (∃ sc, t.Formed sc) ∧ t.keptApart = true := by
  intro t ht
  obtain ⟨u, hu, hstart⟩ := List.mem_filterMap.mp ht
  rcases (tokens_eq_ok_iff.mp h).2.formed u hu with ⟨content, rfl⟩ | hform
  · cases hstart
  · exact hform.start hstart

/-! ## Edits that leave the tags in their forms -/

namespace TagEdit

/-- An edit leaves tags in their forms: a start tag stays a start tag, raw text elements keep
their names, no other element becomes one, and end tags are given tag names. -/
structure Lawful (E : TagEdit) : Prop where
  formed : ∀ t selfClosing, t.Formed selfClosing → (E.start t).Formed selfClosing
  raw_tag : ∀ t, isRawText t.tag = true → (E.start t).tag = t.tag
  raw_endName : ∀ t name, isRawText t.tag = true → E.endName t name = name
  not_raw : ∀ t, isRawText t.tag = false → isRawText (E.start t).tag = false
  endName : ∀ t name, IsTagName name → IsTagName (E.endName t name)

theorem Lawful.nothing : nothing.Lawful :=
  ⟨fun _ _ h => h, fun _ _ => rfl, fun _ _ _ => rfl, fun _ h => h, fun _ _ h => h⟩

theorem Lawful.andThen {E F : TagEdit} (hE : E.Lawful) (hF : F.Lawful) : (E.andThen F).Lawful where
  formed t sc h := hF.formed _ sc (hE.formed t sc h)
  raw_tag t h := by
    have htag := hE.raw_tag t h
    rw [← htag] at h
    exact (hF.raw_tag _ h).trans htag
  raw_endName t name h := by
    have hname := hE.raw_endName t name h
    rw [← hE.raw_tag t h] at h
    exact (hF.raw_endName _ _ h).trans hname
  not_raw t h := hF.not_raw _ (hE.not_raw t h)
  endName t name h := hF.endName _ _ (hE.endName t name h)

theorem head?_tokens (E : TagEdit) (b : Builder) (ts : List Token) :
    ((E.tokens b ts).flatMap Token.render).head? = (ts.flatMap Token.render).head? := by
  induction ts generalizing b with
  | nil => rfl
  | cons t ts ih =>
    cases t with
    | text content => simp only [tokens, token, List.flatMap_cons, List.head?_append, ih]
    | endTag name trailing =>
      simp only [tokens, token, List.flatMap_cons]
      cases b.innermost? name <;> rfl
    | _ => rfl

theorem Lawful.formed_token {E : TagEdit} (hE : E.Lawful) (b : Builder) {t : Token}
    (ht : t.Formed) (hapart : ∀ start, t.start? = some start → (E.start start).keptApart = true) :
    (E.token b t).Formed := by
  cases ht with
  | @startTag start _ hf _ hno =>
    refine .startTag (hE.formed _ _ hf) (hapart _ rfl) ?_
    -- a raw text element that is no `rawElement` closes itself, and keeps its name
    cases hraw : isRawText start.tag with
    | true => rwa [hE.raw_tag _ hraw]
    | false => rw [hE.not_raw _ hraw, Bool.and_false]
  | @rawElement start _ name _ hf _ hvoid hraw hcontent hname htail =>
    have htag := hE.raw_tag start hraw
    simp only [token, hE.raw_endName start name hraw]
    exact .rawElement (hE.formed _ _ hf) (hapart _ rfl) (by rwa [htag]) (by rwa [htag])
      (by rwa [htag]) hname htail
  | endTag hname htail =>
    simp only [token]
    split
    · exact .endTag (hE.endName _ _ hname) htail
    · exact .endTag hname htail

theorem Lawful.readsAll {E : TagEdit} (hE : E.Lawful) (b : Builder) {ts : List Token}
    (h : ReadsAll ts)
    (hapart : ∀ t ∈ ts.filterMap Token.start?, (E.start t).keptApart = true) :
    ReadsAll (E.tokens b ts) := by
  induction ts generalizing b with
  | nil => trivial
  | cons t ts ih =>
    have hrest : ∀ u ∈ ts.filterMap Token.start?, (E.start u).keptApart = true := by
      intro u hu
      obtain ⟨v, hv, hstart⟩ := List.mem_filterMap.mp hu
      exact hapart u (List.mem_filterMap.mpr ⟨v, List.mem_cons_of_mem t hv, hstart⟩)
    refine ⟨?_, ih _ h.2 hrest⟩
    rcases h.formed t List.mem_cons_self with ⟨content, rfl⟩ | ht
    · -- a text depends on the first character behind it, which no edit changes
      exact readsBefore_of_head?_eq h.1 (E.head?_tokens _ ts)
    · refine (hE.formed_token b ht fun start hs => ?_).readsBefore _
      exact hapart start (List.mem_filterMap.mpr ⟨t, List.mem_cons_self, hs⟩)

/-- The text that a lawful edit writes is read into the edited tokens, if the start tags stay
kept apart. -/
theorem Lawful.tokens_written {E : TagEdit} (hE : E.Lawful) {s : Text} {ts : List Token}
    (h : Markup.tokens s = .ok ts)
    (hapart : ∀ t ∈ ts.filterMap Token.start?, (E.start t).keptApart = true) :
    Markup.tokens ((E.tokens .empty ts).flatMap Token.render) = .ok (E.tokens .empty ts) :=
  tokens_eq_ok_iff.mpr ⟨rfl, hE.readsAll .empty (tokens_eq_ok_iff.mp h).2 hapart⟩

end TagEdit

/-! ## Documents -/

namespace Document

def startTags (d : Document) : List StartTag := d.elements.map (·.toStartTag)

theorem startTags_eq (ts : List Token) :
    (Document.mk (build ts)).startTags = ts.filterMap Token.start? :=
  startTags_build ts

theorem startTags_mapElements (E : TagEdit) (d : Document) :
    (d.mapElements E.apply).startTags = d.startTags.map E.start := by
  simp [startTags, elements, mapElements, Node.elementsAll_mapElementsAll, TagEdit.apply]

theorem toText_mapElements (E : TagEdit) (ts : List Token) :
    ((Document.mk (build ts)).mapElements E.apply).toText =
      (E.tokens .empty ts).flatMap Token.render :=
  renderAll_apply_build E ts

theorem keptApart_of_ofText {s : Text} {d : Document} (h : ofText s = .ok d) :
    ∀ t ∈ d.startTags, (∃ sc, t.Formed sc) ∧ t.keptApart = true := by
  obtain ⟨ts, hts, rfl⟩ := ofText_eq_ok_iff.mp h
  rw [startTags_eq]
  exact startTag_of_tokens hts

/-- The text of a template after a lawful edit is read again if the start tags stay kept apart.
They are the edited ones, whatever the end tags belong to now. -/
theorem rereads_of_edit {E : TagEdit} (hE : E.Lawful) {s : Text} {d : Document}
    (h : ofText s = .ok d) (hapart : ∀ t ∈ d.startTags, (E.start t).keptApart = true) :
    ∃ again, ofText (d.mapElements E.apply).toText = .ok again ∧
      again.startTags = (d.mapElements E.apply).startTags := by
  obtain ⟨ts, hts, rfl⟩ := ofText_eq_ok_iff.mp h
  rw [startTags_eq] at hapart
  have hwritten := hE.tokens_written hts hapart
  have hread : ofText ((Document.mk (build ts)).mapElements E.apply).toText =
      .ok ⟨build (E.tokens .empty ts)⟩ := by
    rw [toText_mapElements, ofText, hwritten]
  refine ⟨_, hread, ?_⟩
  rw [startTags_mapElements, startTags_eq, startTags_eq, E.start?_tokens]

end Document

end ExtensionAudit.Markup
