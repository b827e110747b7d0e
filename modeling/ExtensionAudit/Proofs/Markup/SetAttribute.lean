import ExtensionAudit.Proofs.Markup.AttributeRoom
/-
  Setting an attribute, and reading the template again. Where the start tag has no
  room for it, what is written behind a separator is read as another value, or a
  text behind it is taken for the value and is missing among the other pieces.

  Main statement: `Document.setAttribute_rereads_iff`, the edit is read back exactly
  where there is room, with a failure `not_setAttribute_rereads`.
-/

namespace ExtensionAudit.Markup

/-- A name and its separator are two characters at least, and the first one is no blank. -/
theorem exists_cons_cons_of_separator {name before : Text} (hname : IsAttributeName name)
    (hbefore : AllBlank before) :
    ∃ c d u, isBlank c = false ∧ ∀ y, name ++ (before ++ '=' :: y) = c :: d :: (u ++ y) := by
  obtain ⟨c, r, hr, -, hc, -⟩ :=
    head_of_nameEnds hname (nameEnds_separator hname (separator_head hbefore []))
  have hne : name ≠ [] := hname.elim (by rintro rfl; simp) (·.1)
  obtain ⟨c', n, rfl⟩ := List.exists_cons_of_ne_nil hne
  obtain ⟨rfl, -⟩ := List.cons_eq_cons.mp hr
  obtain ⟨d, u, hu⟩ := List.exists_cons_of_ne_nil (l := n ++ before ++ ['=']) (by simp)
  refine ⟨c', d, u, hc, fun y => ?_⟩
  rw [← List.cons_append, ← hu]
  simp

section Reread

variable {tagStart value next rest : Text} {found : TagEnd}

/-- Behind pieces that end in front of it, a named attribute is read with the value that stands
behind its separator. -/
theorem exists_of_attributes_separator {front : List Attribute} {leading name before x y : Text}
    (hfront : ∀ b ∈ front, b.Formed) (hleading : AllBlank leading) (hname : IsAttributeName name)
    (hbefore : AllBlank before)
    (hapart : Attribute.apart front (leading ++ (name ++ (before ++ '=' :: x))) = true)
    (h : attributes tagStart (front.flatMap Attribute.render ++
      (leading ++ (name ++ (before ++ '=' :: y)))) = .ok found) :
    ∃ a v quote rest as, attributeValue tagStart (y.dropWhile isBlank) = .ok (v, quote, rest) ∧
      a.name = name ∧ a.value = some v ∧ found.attributes = front ++ .named a :: as ∧
      attributesOnto tagStart (.named a :: front.reverse) rest = .ok found := by
  obtain ⟨c, d, u, hc, hsplit⟩ := exists_cons_cons_of_separator hname hbefore
  rw [hsplit, Attribute.apart_piece hc (endsName_cons_cons c d _ (u ++ y)), ← hsplit] at hapart
  obtain ⟨hopen, hpiece⟩ := piece_name hname
    (nameEnds_separator hname (separator_head hbefore y))
  have hrun : Text.endsRun isBlank (name ++ (before ++ '=' :: y)) = true := by
    rw [hsplit]
    simpa [Text.endsRun] using hc
  rw [attributes, attributesOnto_before hfront hapart] at h
  obtain ⟨a, rest, ha, hrest⟩ :=
    exists_of_attributesOnto (Text.dropWhile_run hleading hrun) hopen h
  rw [Text.takeWhile_run hleading hrun, hpiece, namedAttribute_separator hname hbefore] at ha
  obtain ⟨⟨v, quote, rest'⟩, hv, he⟩ := exists_of_map_eq_ok ha
  simp only [Prod.mk.injEq] at he
  obtain ⟨rfl, rfl⟩ := he
  obtain ⟨as, has, -⟩ := attributesOnto_sound hrest
  exact ⟨_, v, quote, rest', as, hv, rfl, rfl, by simpa using has, by simpa using hrest⟩

theorem dropWhile_eq_cons_of_not_mem {p : Char → Bool} {c : Char} {v s r : Text}
    (h : (v ++ s).dropWhile p = c :: r) (hc : c ∉ v) : s.dropWhile p = c :: r := by
  induction v with
  | nil => exact h
  | cons d v ih =>
    rw [List.cons_append, List.dropWhile_cons] at h
    split at h
    · exact ih h fun hmem => hc (List.mem_cons_of_mem d hmem)
    · obtain ⟨rfl, -⟩ := List.cons_eq_cons.mp h
      exact absurd List.mem_cons_self hc

/-- A plain value that is read back stood without marks where it could, or the blanks it is made of
stood between those of a text behind it. -/
theorem plain_of_attributeValue {quote : Quote} (hvalue : IsPlainValue value)
    (h : attributeValue tagStart ((value ++ next).dropWhile isBlank) = .ok (value, quote, rest)) :
    ((∀ c ∈ value, isValueStop c = false) ∧
        (value = [] → (next.dropWhile isBlank).head? = some '>')) ∨
      ∃ mark r, (mark = '"' ∨ mark = '\'') ∧ next.dropWhile isBlank = mark :: r ∧
        quoted mark ⟨.attributeValue, tagStart⟩ r = .ok (value, rest) := by
  rcases attributeValue_cases h with ⟨mark, r, hmark, hs, hv⟩ | ⟨-, hnil, -, -, hv⟩
  · have hmark : mark = '"' ∨ mark = '\'' := hmark.imp And.left And.left
    have hmem : mark ∉ value := fun hmem => by
      obtain ⟨hdouble, hsingle, -⟩ := hvalue mark hmem
      exact hmark.elim hdouble hsingle
    exact .inr ⟨mark, r, hmark, dropWhile_eq_cons_of_not_mem hs hmem, hv⟩
  · obtain ⟨hwhole, hend⟩ := value_sound (fun c => isTwigSecond_of_isValueStop) hv
    refine .inl ⟨(isValue_iff_of_ne_brace fun c hc => (hvalue c hc).2.2).mp hwhole, ?_⟩
    rintro rfl
    have happend := value_append hv
    rw [List.nil_append, List.nil_append] at happend
    subst happend
    have hrun := Text.endsRun_dropWhile isBlank next
    cases hnext : next.dropWhile isBlank with
    | nil => exact absurd hnext hnil
    | cons c r =>
      rw [hnext] at hend hrun
      have hblank : isBlank c = false := by simpa [Text.endsRun] using hrun
      simpa [endsValue, isValueStop, hblank] using hend

/-- A quoted text behind a separator is the first of the pieces that stand there, and the others
stand behind it. -/
theorem exists_cons_of_quoted {back : List Attribute} {tail inner x : Text} {mark : Char}
    {selfClosing : Bool} (hback : ∀ b ∈ back, b.Formed) (htail : IsTagTail selfClosing tail)
    (hapart : Attribute.apart back (tail ++ next) = true) (hmark : mark = '"' ∨ mark = '\'')
    (hx : (back.flatMap Attribute.render ++ (tail ++ next)).dropWhile isBlank = mark :: x)
    (hquoted : quoted mark ⟨.attributeValue, tagStart⟩ x = .ok (inner, rest)) :
    ∃ b back', back = b :: back' ∧ rest = back'.flatMap Attribute.render ++ (tail ++ next) := by
  cases back with
  | nil =>
    obtain ⟨blanks, hblanks, rfl⟩ := htail
    have hrun : Text.endsRun isBlank ((if selfClosing then ['/', '>'] else ['>']) ++ next) = true := by
      cases selfClosing <;> rfl
    rw [List.flatMap_nil, List.nil_append, List.append_assoc, Text.dropWhile_run hblanks hrun] at hx
    cases selfClosing <;> rcases hmark with rfl | rfl <;> simp at hx
  | cons b back =>
    simp only [Attribute.apart, Bool.and_eq_true] at hapart
    have hform := hback b List.mem_cons_self
    obtain ⟨hdrop, -⟩ := hform.cut_leading hapart.1
    have hsplit : (b :: back).flatMap Attribute.render ++ (tail ++ next) =
        b.leading ++ (b.body ++ (back.flatMap Attribute.render ++ (tail ++ next))) := by
      simp [Attribute.render]
    rw [hsplit, hdrop] at hx
    -- the reader of pieces takes the same quoted text
    obtain ⟨-, hpiece⟩ := piece_complete tagStart hform hapart.1
    have htwig : twig? (mark :: x) = none :=
      twig?_of_ne_brace (by rcases hmark with rfl | rfl <;> decide)
    refine ⟨b, back, rfl, ?_⟩
    rw [hx] at hpiece
    rcases hmark with rfl | rfl
    · simp only [piece, htwig, hquoted, Except.map, Except.ok.injEq, Prod.mk.injEq] at hpiece
      exact hpiece.2
    · simp only [piece, htwig, hquoted, Except.map, Except.ok.injEq, Prod.mk.injEq] at hpiece
      exact hpiece.2

theorem render_unquoted (leading name before behind v s : Text) :
    (Attribute.named ⟨leading, name, before ++ '=' :: behind, some v, .none⟩).render ++ s =
      leading ++ (name ++ (before ++ '=' :: (behind ++ (v ++ s)))) := by
  simp [Attribute.render, Attribute.body, Attribute.leading, Quote.mark]

theorem head?_dropWhile_tail {tail : Text} {selfClosing : Bool} (htail : IsTagTail selfClosing tail)
    (s r : Text) :
    ((s ++ (tail ++ r)).dropWhile isBlank).head? = ((s ++ tail).dropWhile isBlank).head? := by
  obtain ⟨u, rfl⟩ := htail.exists_append
  simpa using Text.head?_dropWhile_cons (p := isBlank) (c := '>') (by decide) (s ++ u) r []

/-- Where an attribute that was there is read back with its new value and the same others, it takes
this value. -/
theorem takes_of_reread {e f : Element} {name r : Text} {front back : List Attribute}
    {a : NamedAttribute} {selfClosing : Bool} (hform : e.toStartTag.Formed selfClosing)
    (hk : e.toStartTag.keptApart = true) (hvalue : IsPlainValue value)
    (he : e.attributes = front ++ .named a :: back) (ha : a.name = name)
    (hfront : ∀ b ∈ front, b.isNamed name = false)
    (hread : attributes tagStart ((front ++ .named (a.withValue value) :: back).flatMap
      Attribute.render ++ (e.tail ++ r)) = .ok found)
    (hf : f.attributes = found.attributes) (hset : f.HasSet e name value) :
    a.takes value (back.flatMap Attribute.render ++ e.tail) = true := by
  have hothers := hset.others.trans (Element.others_of_split he hfront ha)
  obtain ⟨hk, -, hback⟩ := Element.keptApart_split hk he
  have hformfront : ∀ b ∈ front, b.Formed := fun b hb => hform.attributes b (by simp [he, hb])
  have hformback : ∀ b ∈ back, b.Formed := fun b hb => hform.attributes b (by simp [he, hb])
  cases hform.attributes (.named a) (by simp [he]) with
  | bare => rfl
  | @valued leading _ before behind old quote hleading hname hbefore hbehind _ =>
    -- a quoted value keeps its marks, so only an unquoted one can be read differently
    by_cases hquote : quote = .none
    · subst hquote
      simp only [List.flatMap_append, List.flatMap_cons, List.append_assoc,
        List.cons_append, NamedAttribute.withValue, Option.isNone_some, Bool.false_eq_true,
        if_false, render_unquoted] at hread hk
      obtain ⟨b, v, quote, rest, as, hv, hbname, hbvalue, has, hrest⟩ :=
        exists_of_attributes_separator hformfront hleading hname hbefore hk hread
      rw [List.dropWhile_append_of_pos hbehind] at hv
      have hb : b.name = name := hbname.trans ha
      have hnew := hset.value
      rw [Element.attribute?_of_split (hf.trans has) hfront hb, Option.bind_some, hbvalue] at hnew
      obtain rfl : v = value := Option.some.inj hnew
      rw [Element.others_of_split (hf.trans has) hfront hb] at hothers
      rcases plain_of_attributeValue hvalue hv with ⟨hstops, hempty⟩ | ⟨mark, x, hmark, hx, hquoted⟩
      · rw [head?_dropWhile_tail hform.tail] at hempty
        cases v <;> simp_all [NamedAttribute.takes]
      · -- the text behind it was taken for the value, so one of the others is missing
        rw [← Attribute.apart_tail hform.tail r] at hback
        obtain ⟨piece, back, rfl, rfl⟩ :=
          exists_cons_of_quoted hformback hform.tail hback hmark hx hquoted
        rw [Attribute.apart, Bool.and_eq_true] at hback
        rw [attributesOnto_complete (fun b hb => hformback b (by simp [hb])) hback.2 hform.tail,
          Except.ok.injEq] at hrest
        subst hrest
        obtain rfl : back = as := by simpa using has
        have hlength := congrArg List.length hothers
        simp at hlength
    · simp [NamedAttribute.takes, hquote]

/-- Where a plain name stands behind a separator, what is read is not the empty value. -/
theorem ne_nil_of_attributeValue {c : Char} {s v : Text} {quote : Quote}
    (hc : isPlainNameChar c = true)
    (h : attributeValue tagStart (c :: s) = .ok (v, quote, rest)) : v ≠ [] := by
  rintro rfl
  have happend := attributeValue_append h
  have hrun : Text.endsRun isBlank (c :: s) = true := by
    simpa [Text.endsRun] using isBlank_of_isPlainNameChar hc
  obtain ⟨-, hend⟩ := attributeValue_sound hrun h
  simp only [isPlainNameChar, Bool.and_eq_true, bne_iff_ne, ne_eq] at hc
  obtain ⟨⟨⟨⟨⟨⟨-, hdouble⟩, hsingle⟩, -⟩, hgt⟩, -⟩, -⟩ := hc
  cases quote with
  | none =>
    obtain rfl : rest = c :: s := happend
    simp [hgt] at hend
  | single => exact hsingle (List.cons_eq_cons.mp happend).1.symm
  | double => exact hdouble (List.cons_eq_cons.mp happend).1.symm

/-- Where an attribute that was not there is read back behind the same others, the last of these is
written further than its separator. -/
theorem written_of_reread {e f : Element} {name r : Text} {selfClosing : Bool}
    (hform : e.toStartTag.Formed selfClosing) (hk : e.toStartTag.keptApart = true)
    (hname : IsPlainName name) (hmissing : e.attributes.any (·.isNamed name) = false)
    (hread : attributes tagStart ((e.attributes ++ [Attribute.fresh name (some value)]).flatMap
      Attribute.render ++ (e.tail ++ r)) = .ok found)
    (hf : f.attributes = found.attributes) (hset : f.HasSet e name value) :
    e.attributes.getLast?.any Attribute.endsInSeparator = false := by
  have hothers := hset.others.trans (Element.others_of_missing hmissing)
  obtain ⟨⟨tag, pieces, tail⟩, line, closing⟩ := e
  refine Bool.eq_false_iff.mpr fun hany => ?_
  obtain ⟨last, hlast, hends⟩ := (Option.any_eq_true ..).mp hany
  obtain ⟨front, rfl⟩ := List.getLast?_eq_some_iff.mp hlast
  simp only [StartTag.keptApart, Attribute.apart_append, Bool.and_eq_true] at hk
  obtain ⟨-, hk, -⟩ := hk
  have hformfront : ∀ b ∈ front, b.Formed := fun b hb => hform.attributes b (by simp [hb])
  cases hform.attributes last (by simp) with
  | twig => cases hends
  | quoted => cases hends
  | bare => cases hends
  | @valued leading other before behind old quote hleading hother hbefore hbehind _ =>
    obtain ⟨rfl, rfl⟩ : old = [] ∧ quote = .none := by
      simpa [Attribute.endsInSeparator] using hends
    simp only [List.flatMap_append, List.flatMap_cons, List.flatMap_nil, List.append_nil,
      List.append_assoc, List.cons_append, render_unquoted, List.nil_append] at hread hk
    obtain ⟨b, v, quote, rest, as, hv, hbname, hbvalue, has, -⟩ :=
      exists_of_attributes_separator hformfront hleading hother hbefore hk hread
    obtain ⟨c, n, rfl⟩ := List.exists_cons_of_ne_nil hname.1
    have hc := hname.2 c List.mem_cons_self
    obtain ⟨z, hz⟩ : ∃ z, (Attribute.fresh (c :: n) (some value)).render ++ (tail ++ r) =
        ' ' :: c :: z := ⟨_, rfl⟩
    have hdrop : (' ' :: c :: z).dropWhile isBlank = c :: z := by
      have hblank : isBlank ' ' = true := by decide
      simp [hblank, isBlank_of_isPlainNameChar hc]
    rw [List.dropWhile_append_of_pos hbehind, hz, hdrop] at hv
    have hne := ne_nil_of_attributeValue hc hv
    -- the last piece has a value now, and it is one of the others
    simp only [List.any_append, List.any_cons, List.any_nil, Bool.or_false, Bool.or_eq_false_iff,
      List.any_eq_false, Bool.not_eq_true] at hmissing
    obtain ⟨hfront, hlastname⟩ := hmissing
    rw [Element.others, hf, has, List.eraseP_append_right _ (by simpa using hfront),
      List.eraseP_cons_of_neg (by simpa [Attribute.isNamed, hbname] using hlastname)] at hothers
    simp [Attribute.content, hbvalue, hne] at hothers

end Reread

namespace Document

/-- Setting an attribute is read back, with the same tag and the same other attributes, exactly where
the start tag has room for it. -/
theorem setAttribute_rereads_iff {source : String} {d : Document} {i : Nat} {e : Element}
    {name value : Text} (h : parse source = .ok d) (he : d.elements[i]? = some e)
    (hname : IsPlainName name) (hvalue : IsPlainValue value) :
    (∃ again f, parse (d.modifyElement (·.setAttribute name (some value)) i).render = .ok again ∧
        again.elements[i]? = some f ∧ f.HasSet e name value) ↔
      e.hasRoom name value = true := by
  have hread (again : Document) :
      parse (d.modifyElement (·.setAttribute name (some value)) i).render = .ok again ↔
        ofText (d.modifyElement (·.setAttribute name (some value)) i).toText = .ok again := by
    rw [parse, render, String.toList_ofList]
  have hchanges := changesStart_setAttribute name value
  have hstart : d.startTags[i]? = some e.toStartTag := by simp [startTags, he]
  obtain ⟨⟨selfClosing, hform⟩, hk⟩ := keptApart_of_ofText h _ (List.mem_of_getElem? hstart)
  constructor
  · rintro ⟨again, f, hagain, hf, hset⟩
    obtain ⟨tagStart, found, r, hfound, hattributes⟩ :=
      exists_of_reread_element h he hchanges (by rw [StartTag.withAttribute_tag]; exact hform.name)
        (StartTag.withAttribute_endsRun hform hk hname) ((hread again).mp hagain)
    have hpieces : f.attributes = found.attributes := by
      simp only [startTags, List.getElem?_map, hf, Option.map_some, Option.some.injEq] at hfound
      rw [hfound]
    -- set in place of an attribute of that name, or behind all others
    cases hany : e.attributes.any (·.isNamed name) with
    | false =>
      rw [StartTag.withAttribute, if_neg (by simp [hany])] at hattributes
      rw [StartTag.hasRoom_of_missing hany,
        written_of_reread hform hk hname hany hattributes hpieces hset, Bool.not_false]
    | true =>
      obtain ⟨front, a, back, hsplit, ha, hfront⟩ := exists_split_of_named hany
      rw [StartTag.withAttribute_of_split hsplit hfront ha] at hattributes
      rw [StartTag.hasRoom_of_split hsplit hfront ha]
      exact takes_of_reread hform hk hvalue hsplit ha hfront hattributes hpieces hset
  · intro hroom
    obtain ⟨t, ht⟩ := Element.exists_setsAs_of_hasRoom hform hk hname hvalue hroom
    obtain ⟨again, hagain, hstarts⟩ :=
      rereads_element h he hchanges ht.render ht.formed ht.tag ht.keptApart
    have hagainstart : again.startTags[i]? = some t := by
      have hlt := (List.getElem?_eq_some_iff.mp hstart).1
      rw [hstarts, List.getElem?_set_self hlt]
    rw [startTags, List.getElem?_map, Option.map_eq_some_iff] at hagainstart
    obtain ⟨f, hf, hft⟩ := hagainstart
    exact ⟨again, f, (hread again).mpr hagain, hf, ht.hasSet f hft⟩

/-- A value without marks gives way to another one, in front of an attribute on the next line. -/
theorem setAttribute_rereads_iff_link :
    ∃ d e, parse "<p><a href=x\n id='y' \x7b\x7b z \x7d\x7d/></p>" = .ok d ∧ d.elements[1]? = some e ∧
      IsPlainName "href".toList ∧ IsPlainValue "a/b".toList ∧
      e.hasRoom "href".toList "a/b".toList = true ∧
      ∃ again f,
        parse (d.modifyElement (·.setAttribute "href".toList (some "a/b".toList)) 1).render =
          .ok again ∧
        again.elements[1]? = some f ∧ f.HasSet e "href".toList "a/b".toList := by
  obtain ⟨d, hd, hany⟩ := exists_of_any "<p><a href=x\n id='y' \x7b\x7b z \x7d\x7d/></p>"
    (·.elements[1]?.any (·.hasRoom "href".toList "a/b".toList)) (by decide +kernel)
  obtain ⟨e, he, hroom⟩ := (Option.any_eq_true ..).mp hany
  have hname : IsPlainName "href".toList := by decide +kernel
  have hvalue : IsPlainValue "a/b".toList := by decide +kernel
  exact ⟨d, e, hd, he, hname, hvalue, hroom,
    (setAttribute_rereads_iff hd he hname hvalue).mpr hroom⟩

/-- A value with a blank takes the place of one without marks, and only its first word is read
back. -/
theorem not_setAttribute_rereads :
    ∃ d e, parse "<a b=c></a>" = .ok d ∧ d.elements[0]? = some e ∧ IsPlainName "b".toList ∧
      IsPlainValue "x y".toList ∧
      (d.modifyElement (·.setAttribute "b".toList (some "x y".toList)) 0).render =
        "<a b=x y></a>" ∧
      ¬∃ again f,
        parse (d.modifyElement (·.setAttribute "b".toList (some "x y".toList)) 0).render =
          .ok again ∧
        again.elements[0]? = some f ∧ f.HasSet e "b".toList "x y".toList := by
  obtain ⟨d, hd, hall⟩ := exists_of_any "<a b=c></a>" (fun d => d.elements[0]?.isSome &&
    (d.modifyElement (·.setAttribute "b".toList (some "x y".toList)) 0).render =
      "<a b=x y></a>") (by decide +kernel)
  obtain ⟨hsome, hwritten⟩ := Bool.and_eq_true_iff.mp hall
  have hwritten := of_decide_eq_true hwritten
  obtain ⟨e, he⟩ := Option.isSome_iff_exists.mp hsome
  refine ⟨d, e, hd, he, by decide +kernel, by decide +kernel, hwritten, ?_⟩
  rintro ⟨again, f, hagain, hf, hset⟩
  obtain ⟨d', hd', hany⟩ := exists_of_any "<a b=x y></a>"
    (·.elements[0]?.any fun f => (f.attribute? "b".toList).bind (·.value) = some "x".toList)
    (by decide +kernel)
  rw [hwritten, hd', Except.ok.injEq] at hagain
  rw [hagain, hf, Option.any_some] at hany
  have hvalue := hset.value.symm.trans (of_decide_eq_true hany)
  revert hvalue
  decide +kernel

end Document

end ExtensionAudit.Markup
