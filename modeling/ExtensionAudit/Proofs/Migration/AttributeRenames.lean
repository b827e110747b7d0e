import ExtensionAudit.Migration.Registry
import ExtensionAudit.Proofs.Markup.Neighbours
import ExtensionAudit.Proofs.Migration.Edits
/-
  Renames of attributes. An attribute that is dropped takes the blanks in front of
  it along, so its neighbours may run together in the written text, and what is
  read again is the tree that was written exactly when the parts of each start
  tag are kept apart all the same. Then one pass is enough. An attribute that stands
  alone behind a blank is not dropped, and its neighbours stay where they are.

  Main statements: `attribute_converges_iff`, a failure `toggle_runs_together`, and
  `attribute_converges_of_single`.
-/

namespace ExtensionAudit

open Markup

namespace Rename

variable {old new : Text}

theorem mem_mapFirst {f : NamedAttribute → NamedAttribute} {as : List Attribute} {a : Attribute}
    (h : a ∈ Element.mapFirst old f as) :
    a ∈ as ∨ ∃ b, Attribute.named b ∈ as ∧ a = .named (f b) := by
  induction as with
  | nil => exact .inl h
  | cons c as ih =>
    cases c with
    | verbatim leading text =>
      rcases List.mem_cons.mp h with rfl | h
      · exact .inl List.mem_cons_self
      · rcases ih h with h | ⟨b, hb, rfl⟩
        · exact .inl (List.mem_cons_of_mem _ h)
        · exact .inr ⟨b, List.mem_cons_of_mem _ hb, rfl⟩
    | named c =>
      simp only [Element.mapFirst] at h
      split at h
      · rcases List.mem_cons.mp h with rfl | h
        · exact .inr ⟨c, List.mem_cons_self, rfl⟩
        · exact .inl (List.mem_cons_of_mem _ h)
      · rcases List.mem_cons.mp h with rfl | h
        · exact .inl List.mem_cons_self
        · rcases ih h with h | ⟨b, hb, rfl⟩
          · exact .inl (List.mem_cons_of_mem _ h)
          · exact .inr ⟨b, List.mem_cons_of_mem _ hb, rfl⟩

theorem formed_of_renamed (hnew : IsAttributeName new) {a : NamedAttribute}
    (h : (Attribute.named a).Formed) : (Attribute.named { a with name := new }).Formed := by
  cases h with
  | bare hl _ => exact .bare hl hnew
  | valued hl _ hbefore hbehind hv => exact .valued hl hnew hbefore hbehind hv

theorem renamePieces_formed (hnew : IsAttributeName new) {as : List Attribute}
    (h : ∀ a ∈ as, a.Formed) : ∀ a ∈ renamePieces old new as, a.Formed := by
  intro a ha
  have ha := (List.mem_filter.mp ha).1
  split at ha
  · exact h a ha
  · rcases mem_mapFirst ha with ha | ⟨b, hb, rfl⟩
    · exact h a ha
    · exact formed_of_renamed hnew (h _ hb)

theorem renamePieces_done (as : List Attribute) :
    (renamePieces old new as).any (·.isNamed old) = false := by
  simp only [renamePieces, List.any_filter, List.any_eq_false]
  intro a _
  simp

theorem attribute_lawful (hnew : IsAttributeName new) : (Rename.attribute old new).edit.Lawful := by
  have htag (t : StartTag) : ((Rename.attribute old new).edit.start t).tag = t.tag := by
    simp only [edit]
    split <;> rfl
  constructor
  · intro t sc ht
    simp only [edit]
    split
    · exact ⟨ht.name, renamePieces_formed hnew ht.attributes, ht.tail⟩
    · exact ht
  · exact fun t _ => htag t
  · exact fun _ _ _ => rfl
  · exact fun t ht => by rw [htag, ht]
  · exact fun _ _ h => h

theorem attribute_done (t : StartTag) :
    (Rename.attribute old new).touches ((Rename.attribute old new).edit.start t) = false := by
  simp only [touches, edit]
  split
  · exact renamePieces_done t.attributes
  · rename_i h
    simpa only [Bool.not_eq_true] using h

theorem attribute_startTags (d : Document) :
    (Document.mk ((Rename.attribute old new).fix d.nodes).1).startTags =
      d.startTags.map (Rename.attribute old new).edit.start := by
  rw [fix_eq_edit]
  exact Document.startTags_mapElements _ d

theorem attribute_editAll_lawful (hnew : IsPlainName new) :
    (editAll [Rename.attribute old new]).Lawful :=
  editAll_lawful (by simpa using attribute_lawful hnew.isAttributeName)

/-- One pass of an attribute rename is enough, if the parts of each start tag are kept apart. -/
theorem attribute_converges_of_keptApart (hnew : IsPlainName new) {source : String}
    {d : Document} (h : Document.parse source = .ok d)
    (hapart : ∀ t ∈ d.startTags, ((Rename.attribute old new).edit.start t).keptApart = true) :
    Converges [Rename.attribute old new] d := by
  refine converges_of_keptApart (attribute_editAll_lawful hnew) h hapart fun r hr t => ?_
  rw [List.mem_singleton.mp hr]
  exact attribute_done t

/-- One pass of an attribute rename is enough exactly when no start tag in the text that it wrote
has the old name. The text has the start tags that were to be written exactly when their parts are
kept apart, and then one pass is enough. -/
theorem attribute_converges_iff (hnew : IsPlainName new) {source : String} {d : Document}
    (h : Document.parse source = .ok d) :
    let fixed := Document.mk ((Rename.attribute old new).fix d.nodes).1
    (Converges [Rename.attribute old new] d ↔
        ∃ ts, tokens fixed.toText = .ok ts ∧
          ∀ t ∈ ts.filterMap Token.start?, (Rename.attribute old new).touches t = false) ∧
      ((∃ ts, tokens fixed.toText = .ok ts ∧ ts.filterMap Token.start? = fixed.startTags) ↔
        ∀ t ∈ fixed.startTags, t.keptApart = true) ∧
      ((∀ t ∈ fixed.startTags, t.keptApart = true) → Converges [Rename.attribute old new] d) := by
  intro fixed
  have hedited (hapart : ∀ t ∈ fixed.startTags, t.keptApart = true) :
      ∀ t ∈ d.startTags, ((Rename.attribute old new).edit.start t).keptApart = true :=
    fun t ht => hapart _ (attribute_startTags d ▸ List.mem_map_of_mem ht)
  have hparse (again : Document) : Document.parse fixed.render = .ok again ↔
      ∃ ts, tokens fixed.toText = .ok ts ∧ again = ⟨build ts⟩ := by
    rw [Document.parse, Document.render, String.toList_ofList]
    exact Document.ofText_eq_ok_iff
  refine ⟨?_, ⟨?_, fun hapart => ?_⟩, fun hapart =>
    attribute_converges_of_keptApart hnew h (hedited hapart)⟩
  · rw [converges_iff_startTags]
    constructor
    · rintro ⟨again, hagain, hdone⟩
      obtain ⟨ts, hts, rfl⟩ := (hparse again).mp hagain
      exact ⟨ts, hts, Document.startTags_eq ts ▸ hdone _ List.mem_cons_self⟩
    · rintro ⟨ts, hts, hdone⟩
      refine ⟨_, (hparse _).mpr ⟨ts, hts, rfl⟩, fun r hr => ?_⟩
      rw [List.mem_singleton.mp hr, Document.startTags_eq]
      exact hdone
  · rintro ⟨ts, hts, heq⟩ t ht
    exact (startTag_of_tokens hts t (heq ▸ ht)).2
  · -- start tags that are kept apart are read back as they are
    obtain ⟨again, hagain, heq, -⟩ :=
      inOrder_rereads (attribute_editAll_lawful hnew) h (hedited hapart)
    obtain ⟨ts, hts, rfl⟩ := (hparse again).mp hagain
    exact ⟨ts, hts, (Document.startTags_eq ts).symm.trans heq⟩

/-- An attribute is renamed, and one is dropped in front of the end of the tag. -/
theorem attribute_converges_iff_toggle :
    ∃ d, Document.parse "<a data-toggle='x' b><i data-bs-toggle data-toggle/>" = .ok d ∧
      Converges [Registry.bootstrapRename "toggle"] d := by
  obtain ⟨d, hd, hapart⟩ := Document.exists_of_any
    "<a data-toggle='x' b><i data-bs-toggle data-toggle/>"
    (fun d => (Document.mk ((Registry.bootstrapRename "toggle").fix d.nodes).1).startTags.all
      (·.keptApart)) (by decide +kernel)
  exact ⟨d, hd, (attribute_converges_iff (by decide +kernel) hd).2.2
    (List.all_eq_true.mp hapart)⟩

theorem not_converges_of_all {r : Rename} {d : Document}
    (h : (Document.parse (Document.mk (r.fix d.nodes).1).render).toOption.all
      (fun again => !(r.check again.nodes).isEmpty) = true) : ¬Converges [r] d := by
  rintro ⟨again, hagain, -, hdone⟩
  have hagain : Document.parse (Document.mk (r.fix d.nodes).1).render = .ok again := hagain
  rw [hagain] at h
  simp [Except.toOption, (hdone r List.mem_cons_self).1] at h

/-- Where an attribute is dropped and nothing keeps its neighbours apart, the old name comes
back, or an element no longer closes itself and the file is not read any more. -/
theorem toggle_runs_together :
    (∃ d, Document.parse "<a data-bs-toggle data- data-toggle='x'toggle></a>" = .ok d ∧
      (Document.mk ((Registry.bootstrapRename "toggle").fix d.nodes).1).render =
        "<a data-bs-toggle data-toggle></a>" ∧
      ¬Converges [Registry.bootstrapRename "toggle"] d) ∧
    ∃ d, Document.parse "<script data-bs-toggle src=x data-toggle='y'/>" = .ok d ∧
      (Document.mk ((Registry.bootstrapRename "toggle").fix d.nodes).1).render =
        "<script data-bs-toggle src=x/>" ∧
      ¬Converges [Registry.bootstrapRename "toggle"] d := by
  have hwrites (source fixed : String) (h : (Document.parse source).toOption.any (fun d =>
      (Document.mk ((Registry.bootstrapRename "toggle").fix d.nodes).1).render = fixed &&
        (Document.parse fixed).toOption.all fun again =>
          !((Registry.bootstrapRename "toggle").check again.nodes).isEmpty) = true) :
      ∃ d, Document.parse source = .ok d ∧
        (Document.mk ((Registry.bootstrapRename "toggle").fix d.nodes).1).render = fixed ∧
        ¬Converges [Registry.bootstrapRename "toggle"] d := by
    obtain ⟨d, hd, hall⟩ := Document.exists_of_any source _ h
    simp only [Bool.and_eq_true, decide_eq_true_eq] at hall
    obtain ⟨hfixed, hall⟩ := hall
    exact ⟨d, hd, hfixed, not_converges_of_all (by rw [hfixed]; exact hall)⟩
  constructor
  · exact hwrites _ "<a data-bs-toggle data-toggle></a>" (by decide +kernel)
  · exact hwrites _ "<script data-bs-toggle src=x/>" (by decide +kernel)

/-! ## Attributes that stand alone -/

theorem renamePieces_single (hne : old ≠ new) {as bs : List Attribute} {a : NamedAttribute}
    (ha : a.name = old) (h : ∀ b ∈ as ++ bs, b.isNamed old = false ∧ b.isNamed new = false) :
    renamePieces old new (as ++ .named a :: bs) = as ++ .named { a with name := new } :: bs := by
  have hnew : (as ++ .named a :: bs).any (·.isNamed new) = false := by
    simp only [List.any_append, List.any_cons, Bool.or_eq_false_iff, List.any_eq_false,
      Bool.not_eq_true]
    refine ⟨fun b hb => (h b (by simp [hb])).2, ?_, fun b hb => (h b (by simp [hb])).2⟩
    simpa [Attribute.isNamed, ha] using hne
  have hfirst : Element.mapFirst old (fun a => { a with name := new }) (as ++ .named a :: bs) =
      as ++ .named { a with name := new } :: bs :=
    Element.mapFirst_append_cons (fun b hb => (h b (by simp [hb])).1) ha bs
  have hkept : ∀ b ∈ as ++ .named { a with name := new } :: bs, (! b.isNamed old) = true := by
    intro b hb
    rcases List.mem_append.mp hb with hb | hb
    · simp [(h b (by simp [hb])).1]
    · rcases List.mem_cons.mp hb with rfl | hb
      · simpa [Attribute.isNamed] using Ne.symm hne
      · simp [(h b (by simp [hb])).1]
  rw [renamePieces, hnew, if_neg Bool.false_ne_true, hfirst, List.filter_eq_self.mpr hkept]

/-- Whether an attribute that is renamed stands alone in a start tag: behind a blank, and with no
other of the old or the new name. -/
def standsAlone (old new : Text) (t : StartTag) : Bool :=
  t.attributes.countP (fun a => a.isNamed old || a.isNamed new) ≤ 1 &&
    t.attributes.all fun a => !a.isNamed old || !a.leading.isEmpty

theorem attribute_keptApart_of_single (hold : IsPlainName old) (hnew : IsPlainName new)
    (hne : old ≠ new) {t : StartTag} {selfClosing : Bool} (ht : t.Formed selfClosing)
    (hk : t.keptApart = true) (halone : standsAlone old new t = true) :
    ((Rename.attribute old new).edit.start t).keptApart = true := by
  obtain ⟨tag, attributes, tail⟩ := t
  simp only [edit]
  split
  · rename_i hany
    obtain ⟨a, ha, hnamed⟩ := List.any_eq_true.mp hany
    obtain ⟨as, bs, rfl⟩ := List.append_of_mem ha
    simp only [standsAlone, Bool.and_eq_true, decide_eq_true_eq, List.all_eq_true] at halone
    obtain ⟨hcount, hblank⟩ := halone
    -- one attribute is called `old`, and the count leaves room for no other
    have hothers : ∀ b ∈ as ++ bs, b.isNamed old = false ∧ b.isNamed new = false := by
      have hzero : (as ++ bs).countP (fun a => a.isNamed old || a.isNamed new) = 0 := by
        simp only [List.countP_append, List.countP_cons, hnamed, Bool.true_or, if_true] at hcount ⊢
        omega
      intro b hb
      have := List.countP_eq_zero.mp hzero b hb
      simpa using this
    cases a with
    | verbatim => cases hnamed
    | named a =>
      have hname : a.name = old := by simpa [Attribute.isNamed] using hnamed
      have hleading : a.leading ≠ [] := by
        have := hblank _ ha
        simpa [hnamed, Attribute.leading] using this
      rw [renamePieces_single hne hname hothers]
      exact StartTag.keptApart_of_renamed (hname ▸ hold) hnew hleading
        (ht.attributes _ ha).leading_blank hk
  · exact hk

/-- One pass is enough where every attribute that is renamed stands alone. -/
theorem attribute_converges_of_single (hold : IsPlainName old) (hnew : IsPlainName new)
    (hne : old ≠ new) {source : String} {d : Document} (h : Document.parse source = .ok d)
    (halone : ∀ t ∈ d.startTags, standsAlone old new t = true) :
    Converges [Rename.attribute old new] d := by
  refine attribute_converges_of_keptApart hnew h fun t ht => ?_
  obtain ⟨⟨sc, hformed⟩, hkept⟩ := Document.keptApart_of_ofText h t ht
  exact attribute_keptApart_of_single hold hnew hne hformed hkept (halone t ht)

end Rename

end ExtensionAudit
