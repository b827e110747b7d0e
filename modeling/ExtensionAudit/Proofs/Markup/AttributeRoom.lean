import ExtensionAudit.Markup.Edit
import ExtensionAudit.Proofs.Markup.ElementEdit
import ExtensionAudit.Proofs.Markup.Neighbours
/-
  Setting an attribute of a start tag. A value takes the place of another one in the
  same quotation marks, so one without marks must be a value that can stand without
  them; a new attribute is written behind the last piece, which must not be waiting
  for a value.

  Main statement: `Element.exists_setsAs_of_hasRoom`, where the start tag has room,
  the edited one is written as one whose parts are kept apart.
-/

namespace ExtensionAudit.Markup

/-- Whether a text is a plain attribute value: no quotation mark and no brace. -/
def IsPlainValue (value : Text) : Prop := ∀ c ∈ value, c ≠ '"' ∧ c ≠ '\'' ∧ c ≠ '{'

instance : DecidablePred IsPlainValue := fun value =>
  decidable_of_iff (value.all (fun c => c != '"' && c != '\'' && c != '{') = true)
    (by simp [IsPlainValue, and_assoc])

/-! ## What a start tag says -/

/-- What a piece of a start tag says, however it is written: a name and a value, or a text. -/
def Attribute.content : Attribute → (Text × Option Text) ⊕ Text
  | .named a => .inl (a.name, a.value)
  | .verbatim _ text => .inr text

/-- What the pieces of a start tag say, but for the first attribute called `name`. -/
def Element.others (e : Element) (name : Text) : List ((Text × Option Text) ⊕ Text) :=
  (e.attributes.eraseP (·.isNamed name)).map Attribute.content

/-- Whether an element is another one with an attribute set: the tag is the same, the attribute has
the value, and all others are the same in the same order. -/
structure Element.HasSet (f e : Element) (name value : Text) : Prop where
  tag : f.tag = e.tag
  value : (f.attribute? name).bind (·.value) = some value
  others : f.others name = e.others name

theorem exists_split_of_named {name : Text} {as : List Attribute}
    (h : as.any (·.isNamed name) = true) :
    ∃ front a back, as = front ++ .named a :: back ∧ a.name = name ∧
      ∀ b ∈ front, b.isNamed name = false := by
  obtain ⟨a, ha⟩ := Option.isSome_iff_exists.mp (List.find?_isSome.mpr (List.any_eq_true.mp h))
  obtain ⟨hnamed, front, back, rfl, hfront⟩ := List.find?_eq_some_iff_append.mp ha
  cases a with
  | verbatim => cases hnamed
  | named a => exact ⟨front, a, back, rfl, by simpa [Attribute.isNamed] using hnamed,
      by simpa using hfront⟩

namespace Element

section Split

variable {e f : Element} {name : Text} {front back : List Attribute} {a : NamedAttribute}

theorem attribute?_of_split (he : e.attributes = front ++ .named a :: back)
    (hfront : ∀ b ∈ front, b.isNamed name = false) (ha : a.name = name) :
    e.attribute? name = some a := by
  rw [attribute?, he, List.findSome?_append, List.findSome?_eq_none_iff.mpr]
  · simp [ha]
  · intro b hb
    cases b with
    | verbatim => rfl
    | named b => simpa [Attribute.isNamed] using hfront _ hb

theorem others_of_split (he : e.attributes = front ++ .named a :: back)
    (hfront : ∀ b ∈ front, b.isNamed name = false) (ha : a.name = name) :
    e.others name = (front ++ back).map Attribute.content := by
  have hnamed : (Attribute.named a).isNamed name = true := by simpa [Attribute.isNamed] using ha
  rw [others, he, List.eraseP_append_right _ (by simpa using hfront),
    List.eraseP_cons_of_pos hnamed]

theorem others_of_missing (he : e.attributes.any (·.isNamed name) = false) :
    e.others name = e.attributes.map Attribute.content := by
  rw [others, List.eraseP_of_forall_not (by simpa using he)]

theorem HasSet.of_split {value : Text} (htag : f.tag = e.tag)
    (hf : f.attributes = front ++ .named a :: back)
    (hfront : ∀ b ∈ front, b.isNamed name = false) (ha : a.name = name)
    (hvalue : a.value = some value)
    (he : e.others name = (front ++ back).map Attribute.content) : f.HasSet e name value where
  tag := htag
  value := by rw [attribute?_of_split hf hfront ha]; exact hvalue
  others := by rw [others_of_split hf hfront ha, he]

end Split

end Element

/-! ## The edit of the start tag -/

/-- The attribute with a value, in double quotes where none stood before. -/
def NamedAttribute.withValue (a : NamedAttribute) (value : Text) : NamedAttribute :=
  if a.value.isNone then { a with value := some value, separator := ['='], quote := .double }
  else { a with value := some value }

section WithValue

variable (a : NamedAttribute) {value : Text}

theorem NamedAttribute.withValue_leading : (a.withValue value).leading = a.leading := by
  unfold withValue
  split <;> rfl

theorem NamedAttribute.withValue_name : (a.withValue value).name = a.name := by
  unfold withValue
  split <;> rfl

theorem NamedAttribute.withValue_value : (a.withValue value).value = some value := by
  unfold withValue
  split <;> rfl

end WithValue

def StartTag.withAttribute (t : StartTag) (name value : Text) : StartTag :=
  if t.attributes.any (·.isNamed name) then
    { t with attributes := Element.mapFirst name (·.withValue value) t.attributes }
  else { t with attributes := t.attributes ++ [.fresh name (some value)] }

theorem changesStart_setAttribute (name value : Text) :
    ChangesStart (·.setAttribute name (some value)) (·.withAttribute name value) := by
  intro e
  have hany : e.attributes.any (·.isNamed name) = e.hasAttribute name := rfl
  simp only [Element.setAttribute, StartTag.withAttribute, hany]
  cases e.hasAttribute name with
  | false => exact ⟨rfl, rfl⟩
  | true => simp [NamedAttribute.withValue]

theorem StartTag.withAttribute_tag (t : StartTag) (name value : Text) :
    (t.withAttribute name value).tag = t.tag := by
  unfold withAttribute
  split <;> rfl

theorem StartTag.withAttribute_of_split {t : StartTag} {name value : Text}
    {front back : List Attribute} {a : NamedAttribute}
    (ht : t.attributes = front ++ .named a :: back)
    (hfront : ∀ b ∈ front, b.isNamed name = false) (ha : a.name = name) :
    t.withAttribute name value = ⟨t.tag, front ++ .named (a.withValue value) :: back, t.tail⟩ := by
  have hany : t.attributes.any (·.isNamed name) = true := by
    simp [ht, Attribute.isNamed, ha]
  rw [withAttribute, if_pos hany, ht, Element.mapFirst_append_cons hfront ha]

theorem StartTag.withAttribute_endsRun {t : StartTag} {name value : Text} {selfClosing : Bool}
    (hform : t.Formed selfClosing) (hk : t.keptApart = true) (hname : IsPlainName name) (r : Text) :
    Text.endsRun isNameChar ((t.withAttribute name value).attributes.flatMap Attribute.render ++
      ((t.withAttribute name value).tail ++ r)) = true := by
  simp only [StartTag.keptApart, Bool.and_eq_true] at hk
  rw [← endsRun_tail hform.tail r] at hk
  cases hany : t.attributes.any (·.isNamed name) with
  | false =>
    rw [withAttribute, if_neg (by simp [hany])]
    simp only [List.flatMap_append, List.append_assoc]
    cases hpieces : t.attributes.flatMap Attribute.render with
    | nil => rfl
    | cons c s =>
      rw [hpieces] at hk
      exact hk.1
  | true =>
    obtain ⟨front, a, back, ht, ha, hfront⟩ := exists_split_of_named hany
    obtain ⟨c, n, hn⟩ := List.exists_cons_of_ne_nil hname.1
    have hn' : (a.withValue value).name = c :: n := a.withValue_name.trans (ha.trans hn)
    rw [withAttribute_of_split ht hfront ha]
    simp only [ht, List.flatMap_append, List.flatMap_cons, List.append_assoc, List.cons_append,
      NamedAttribute.render_append hn', NamedAttribute.render_append (ha.trans hn),
      a.withValue_leading] at hk ⊢
    rw [← hk.1]
    simpa only [List.append_assoc, List.cons_append] using
      endsRun_append_cons isNameChar (front.flatMap Attribute.render ++ a.leading) _ _ c

/-- Whether a value can take the place of the one of an attribute, when `next` stands behind it:
between quotation marks any can, elsewhere one without a blank or a `>`, and the empty one only in
front of the `>`. -/
def NamedAttribute.takes (a : NamedAttribute) (value next : Text) : Bool :=
  a.value.isNone || a.quote ≠ .none ||
    value.all (! isValueStop ·) &&
      (!value.isEmpty || (next.dropWhile isBlank).head? = some '>')

/-- Whether an attribute can be set in a start tag. It takes the value if it is there, and
otherwise the last piece is written further than its separator. -/
def StartTag.hasRoom (t : StartTag) (name value : Text) : Bool :=
  match t.attributes.dropWhile (! ·.isNamed name) with
  | .named a :: back => a.takes value (back.flatMap Attribute.render ++ t.tail)
  | _ => !t.attributes.getLast?.any Attribute.endsInSeparator

theorem StartTag.hasRoom_of_split {t : StartTag} {name value : Text} {front back : List Attribute}
    {a : NamedAttribute} (ht : t.attributes = front ++ .named a :: back)
    (hfront : ∀ b ∈ front, b.isNamed name = false) (ha : a.name = name) :
    t.hasRoom name value = a.takes value (back.flatMap Attribute.render ++ t.tail) := by
  have hdrop : (front ++ .named a :: back).dropWhile (! ·.isNamed name) = .named a :: back := by
    rw [List.dropWhile_append_of_pos (by simpa using hfront),
      List.dropWhile_cons_of_neg (by simp [Attribute.isNamed, ha])]
  simp only [hasRoom, ht, hdrop]

theorem StartTag.hasRoom_of_missing {t : StartTag} {name value : Text}
    (h : t.attributes.any (·.isNamed name) = false) :
    t.hasRoom name value = !t.attributes.getLast?.any Attribute.endsInSeparator := by
  have hdrop : (t.attributes ++ []).dropWhile (fun a : Attribute => !a.isNamed name) = [] :=
    List.dropWhile_append_of_pos (by simpa using h)
  rw [List.append_nil] at hdrop
  simp only [hasRoom, hdrop]

/-! ## Where there is room -/

theorem IsPlainValue.isWrittenValue {value : Text} (h : IsPlainValue value) {quote : Quote}
    (hstop : quote = .none → ∀ c ∈ value, isValueStop c = false) : IsWrittenValue quote value := by
  have hbrace : ∀ c ∈ value, c ≠ '{' := fun c hc => (h c hc).2.2
  cases quote with
  | none =>
    refine ⟨(isValue_iff_of_ne_brace hbrace).mpr (hstop rfl), ?_, ?_⟩
    · exact fun hhead => (h _ (List.mem_of_mem_head? hhead)).1 rfl
    · exact fun hhead => (h _ (List.mem_of_mem_head? hhead)).2.1 rfl
  | single => exact (isValue_iff_of_ne_brace hbrace).mpr fun c hc => by simpa using (h c hc).2.1
  | double => exact (isValue_iff_of_ne_brace hbrace).mpr fun c hc => by simpa using (h c hc).1

theorem Attribute.Formed.inDouble {leading name value : Text} (hleading : AllBlank leading)
    (hname : IsAttributeName name) (hvalue : IsPlainValue value) :
    (Attribute.named ⟨leading, name, ['='], some value, .double⟩).Formed := by
  have hempty : AllBlank [] := by simp [AllBlank]
  exact @Attribute.Formed.valued leading name [] [] value .double hleading hname hempty hempty
    (hvalue.isWrittenValue (by simp))

/-- An attribute that takes a value has the form of a piece with it, and ends where it did before,
unless this is the empty value without marks. -/
theorem NamedAttribute.withValue_formed {a : NamedAttribute} {value next : Text}
    (ha : (Attribute.named a).Formed) (hends : (Attribute.named a).endsBefore next = true)
    (hvalue : IsPlainValue value) (htakes : a.takes value next = true)
    (hwritten : a.quote = .none → a.value.isSome → value ≠ []) :
    (Attribute.named (a.withValue value)).Formed ∧
      (Attribute.named (a.withValue value)).endsBefore next = true := by
  cases ha with
  | bare hl hname => exact ⟨.inDouble hl hname hvalue, rfl⟩
  | @valued _ _ _ _ _ quote hl hname hbefore hbehind _ =>
    refine ⟨.valued hl hname hbefore hbehind (hvalue.isWrittenValue ?_), ?_⟩
    · rintro rfl
      have hall : value.all (! isValueStop ·) = true := by
        simp only [takes, Option.isNone_some, ne_eq, decide_not, Bool.false_or] at htakes
        simp only [decide_true, Bool.not_true, Bool.false_or, Bool.and_eq_true] at htakes
        exact htakes.1
      simpa using hall
    · -- without marks the value still ends where the old one did, now that it is not empty
      have hvalue : quote ≠ .none ∨ value.isEmpty = false := by
        by_cases hquote : quote = .none
        · exact .inr (by simpa using hwritten hquote rfl)
        · exact .inl hquote
      simp only [Attribute.endsBefore, withValue, Option.isNone_some, Bool.false_eq_true, if_false,
        Bool.or_eq_true, Bool.and_eq_true, decide_eq_true_eq, Bool.not_eq_true'] at hends ⊢
      rcases hvalue with hquote | hvalue
      · exact .inl (.inl hquote)
      · exact hends.imp_right fun h => ⟨hvalue, h.2⟩

/-- An attribute with the empty value and no marks, the blanks behind it a part of its separator. -/
def NamedAttribute.emptied (a : NamedAttribute) (blanks : Text) : NamedAttribute :=
  { a with separator := a.separator ++ blanks, value := some [] }

theorem NamedAttribute.emptied_formed {a : NamedAttribute} {blanks : Text}
    (ha : (Attribute.named a).Formed) (hsome : a.value.isSome) (hquote : a.quote = .none)
    (hblanks : AllBlank blanks) : (Attribute.named (a.emptied blanks)).Formed := by
  cases ha with
  | bare => cases hsome
  | @valued _ _ before behind _ quote hl hname hbefore hbehind _ =>
    have hbehind' : AllBlank (behind ++ blanks) := by
      intro c hc
      exact (List.mem_append.mp hc).elim (hbehind c) (hblanks c)
    have hempty : IsWrittenValue quote [] := by
      cases hquote
      exact IsPlainValue.isWrittenValue (by simp [IsPlainValue]) (by simp)
    simpa [emptied] using Attribute.Formed.valued hl hname hbefore hbehind' hempty

theorem NamedAttribute.emptied_render {a : NamedAttribute} (hsome : a.value.isSome)
    (hquote : a.quote = .none) (blanks next : Text) :
    (Attribute.named (a.emptied blanks)).render ++ next =
      (Attribute.named (a.withValue [])).render ++ (blanks ++ next) := by
  obtain ⟨leading, name, separator, _ | value, quote⟩ := a
  · cases hsome
  · cases hquote
    simp [Attribute.render, Attribute.body, Attribute.leading, emptied, withValue, Quote.mark]

theorem IsTagTail.eq_of_head?_gt {selfClosing : Bool} {tail : Text}
    (h : IsTagTail selfClosing tail) (hhead : (tail.dropWhile isBlank).head? = some '>') :
    ∃ blanks, AllBlank blanks ∧ tail = blanks ++ ['>'] ∧ selfClosing = false := by
  obtain ⟨blanks, hblanks, rfl⟩ := h
  cases selfClosing with
  | false => exact ⟨blanks, hblanks, rfl, rfl⟩
  | true =>
    have hrun : Text.endsRun isBlank ['/', '>'] = true := by decide
    simp [Text.dropWhile_run hblanks hrun] at hhead

theorem Attribute.eq_nil_of_head?_gt {as : List Attribute} {tail : Text}
    (hforms : ∀ a ∈ as, a.Formed) (hapart : apart as tail = true)
    (hhead : ((as.flatMap render ++ tail).dropWhile isBlank).head? = some '>') : as = [] := by
  cases as with
  | nil => rfl
  | cons a as =>
    simp only [apart, Bool.and_eq_true] at hapart
    have hform := hforms a List.mem_cons_self
    obtain ⟨hopen, -⟩ := piece_complete [] hform hapart.1
    obtain ⟨hdrop, -⟩ := hform.cut_leading hapart.1
    have hsplit : (a :: as).flatMap render ++ tail =
        a.leading ++ (a.body ++ (as.flatMap render ++ tail)) := by
      simp [render]
    rw [hsplit, hdrop] at hhead
    obtain ⟨r, hr⟩ := List.head?_eq_some_iff.mp hhead
    rw [hr] at hopen
    simp [opensPiece] at hopen

/-- Whether a start tag is how the one with an attribute set can be read. -/
structure Element.SetsAs (e : Element) (name value : Text) (t : StartTag) : Prop where
  render : t.render = (e.toStartTag.withAttribute name value).render
  formed : ∀ sc, e.toStartTag.Formed sc → t.Formed sc
  tag : t.tag = e.tag
  keptApart : t.keptApart = true
  hasSet : ∀ f : Element, f.toStartTag = t → f.HasSet e name value

namespace Element

section SetsAs

variable {e : Element} {name value : Text} {selfClosing : Bool} {front back : List Attribute}
  {a : NamedAttribute}

theorem setsAs_added (hform : e.toStartTag.Formed selfClosing) (hk : e.toStartTag.keptApart = true)
    (hname : IsPlainName name) (hvalue : IsPlainValue value)
    (hmissing : e.attributes.any (·.isNamed name) = false)
    (hlast : e.attributes.getLast?.any Attribute.endsInSeparator = false) :
    e.SetsAs name value ⟨e.tag, e.attributes ++ [.fresh name (some value)], e.tail⟩ := by
  have hfresh : (Attribute.fresh name (some value)).Formed :=
    .inDouble (by simp [AllBlank]; decide) hname.isAttributeName hvalue
  refine ⟨?_, fun sc hsc => ⟨hsc.name, fun a ha => ?_, hsc.tail⟩, rfl, ?_, fun f hf => ?_⟩
  · rw [StartTag.withAttribute, if_neg (by simp [hmissing])]
  · rcases List.mem_append.mp ha with ha | ha
    · exact hsc.attributes a ha
    · exact List.mem_singleton.mp ha ▸ hfresh
  · exact StartTag.keptApart_of_added hform hk hlast rfl hname rfl
  · have hattributes : f.attributes = e.attributes ++ .fresh name (some value) :: [] :=
      congrArg StartTag.attributes hf
    refine .of_split (by rw [hf]) hattributes (by simpa using hmissing) rfl rfl ?_
    rw [List.append_nil]
    exact others_of_missing hmissing

/-- An attribute is set by another one of its name in its place, with the value and perhaps another
end of the tag. -/
theorem setsAs_replaced {a' : NamedAttribute} {tail : Text} (hk : e.toStartTag.keptApart = true)
    (hname : IsPlainName name) (he : e.attributes = front ++ .named a :: back) (ha : a.name = name)
    (hfront : ∀ b ∈ front, b.isNamed name = false) (hforma : (Attribute.named a').Formed)
    (hleading : a'.leading = a.leading) (hsame : a'.name = a.name)
    (hvalue : a'.value = some value)
    (htail : ∀ sc, IsTagTail sc e.tail → IsTagTail sc tail)
    (hapart : Attribute.apart (.named a' :: back) tail = true)
    (hrender : (Attribute.named a').render ++ (back.flatMap Attribute.render ++ tail) =
      (Attribute.named (a.withValue value)).render ++
        (back.flatMap Attribute.render ++ e.tail)) :
    e.SetsAs name value ⟨e.tag, front ++ .named a' :: back, tail⟩ := by
  have hothers := others_of_split he hfront ha
  obtain ⟨⟨tag, attributes, tail₀⟩, line, closing⟩ := e
  obtain rfl : attributes = _ := he
  refine ⟨?_, fun sc hsc => ⟨hsc.name, fun b hb => ?_, htail sc hsc.tail⟩, rfl, ?_,
    fun f hf => ?_⟩
  · rw [StartTag.withAttribute_of_split rfl hfront ha]
    simpa [StartTag.render] using hrender
  · rcases List.mem_append.mp hb with hb | hb
    · exact hsc.attributes b (by simp [hb])
    · rcases List.mem_cons.mp hb with rfl | hb
      · exact hforma
      · exact hsc.attributes b (by simp [hb])
  · exact StartTag.keptApart_of_replaced (ha ▸ hname) hleading hsame hapart hk
  · exact .of_split (by rw [hf]) (congrArg StartTag.attributes hf) hfront (hsame.trans ha) hvalue
      hothers

theorem keptApart_split (hk : e.toStartTag.keptApart = true)
    (he : e.attributes = front ++ .named a :: back) :
    Attribute.apart front ((Attribute.named a).render ++
        (back.flatMap Attribute.render ++ e.tail)) = true ∧
      (Attribute.named a).endsBefore (back.flatMap Attribute.render ++ e.tail) = true ∧
      Attribute.apart back e.tail = true := by
  simp only [StartTag.keptApart, he, Attribute.apart_append, Attribute.apart, Bool.and_eq_true,
    List.flatMap_cons, List.append_assoc] at hk
  exact hk.2

theorem setsAs_taken (hform : e.toStartTag.Formed selfClosing) (hk : e.toStartTag.keptApart = true)
    (hname : IsPlainName name) (hvalue : IsPlainValue value)
    (he : e.attributes = front ++ .named a :: back) (ha : a.name = name)
    (hfront : ∀ b ∈ front, b.isNamed name = false)
    (htakes : a.takes value (back.flatMap Attribute.render ++ e.tail) = true)
    (hwritten : a.quote = .none → a.value.isSome → value ≠ []) :
    e.SetsAs name value ⟨e.tag, front ++ .named (a.withValue value) :: back, e.tail⟩ := by
  obtain ⟨-, hends, hback⟩ := keptApart_split hk he
  obtain ⟨hforma, hends'⟩ :=
    a.withValue_formed (hform.attributes _ (by simp [he])) hends hvalue htakes hwritten
  exact setsAs_replaced hk hname he ha hfront hforma a.withValue_leading a.withValue_name
    a.withValue_value (fun _ => id) (by rw [Attribute.apart, hends', hback]; rfl) rfl

/-- The empty value without marks is read in front of the `>`, and the blanks between them belong to
the separator. -/
theorem exists_setsAs_emptied (hform : e.toStartTag.Formed selfClosing)
    (hk : e.toStartTag.keptApart = true) (hname : IsPlainName name)
    (he : e.attributes = front ++ .named a :: back) (ha : a.name = name)
    (hfront : ∀ b ∈ front, b.isNamed name = false) (hsome : a.value.isSome)
    (hquote : a.quote = .none)
    (htakes : a.takes [] (back.flatMap Attribute.render ++ e.tail) = true) :
    ∃ t, e.SetsAs name [] t := by
  have hgt : ((back.flatMap Attribute.render ++ e.tail).dropWhile isBlank).head? = some '>' := by
    obtain ⟨leading, name, separator, _ | value, quote⟩ := a
    · cases hsome
    · cases hquote
      simpa [NamedAttribute.takes] using htakes
  obtain rfl := Attribute.eq_nil_of_head?_gt
    (fun b hb => hform.attributes b (by simp [he, hb])) (keptApart_split hk he).2.2 hgt
  obtain ⟨blanks, hblanks, htail, -⟩ := hform.tail.eq_of_head?_gt hgt
  have hforma :=
    NamedAttribute.emptied_formed (hform.attributes _ (by simp [he])) hsome hquote hblanks
  refine ⟨⟨e.tag, front ++ [.named (a.emptied blanks)], ['>']⟩,
    setsAs_replaced hk hname he ha hfront hforma rfl rfl rfl (fun sc hsc => ?_) ?_ ?_⟩
  · obtain ⟨-, -, -, rfl⟩ := hsc.eq_of_head?_gt hgt
    exact ⟨[], by simp [AllBlank], rfl⟩
  · simp [Attribute.apart, Attribute.endsBefore, NamedAttribute.emptied]
  · simpa [htail] using a.emptied_render hsome hquote blanks ['>']

/-- Where there is room, the tag with the attribute set can be read. -/
theorem exists_setsAs_of_hasRoom (hform : e.toStartTag.Formed selfClosing)
    (hk : e.toStartTag.keptApart = true) (hname : IsPlainName name) (hvalue : IsPlainValue value)
    (hroom : e.hasRoom name value = true) : ∃ t, e.SetsAs name value t := by
  cases hany : e.attributes.any (·.isNamed name) with
  | false =>
    rw [StartTag.hasRoom_of_missing hany] at hroom
    exact ⟨_, setsAs_added hform hk hname hvalue hany (by simpa using hroom)⟩
  | true =>
    obtain ⟨front, a, back, he, ha, hfront⟩ := exists_split_of_named hany
    rw [StartTag.hasRoom_of_split he hfront ha] at hroom
    by_cases hempty : value = [] ∧ a.quote = .none ∧ a.value.isSome
    · obtain ⟨rfl, hquote, hsome⟩ := hempty
      exact exists_setsAs_emptied hform hk hname he ha hfront hsome hquote hroom
    · exact ⟨_, setsAs_taken hform hk hname hvalue he ha hfront hroom
        fun hquote hsome hnil => hempty ⟨hnil, hquote, hsome⟩⟩

end SetsAs

end Element

end ExtensionAudit.Markup
