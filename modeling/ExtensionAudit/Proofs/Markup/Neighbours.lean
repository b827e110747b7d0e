import ExtensionAudit.Proofs.Markup.Front
import ExtensionAudit.Proofs.Markup.TagForm
/-
  The pieces of a start tag and their neighbours. Of what stands behind it, a piece
  depends on the first characters and on the first one that is no blank, so the rest
  may be written anew: behind a blank, behind the first character of a plain name.

  Main statements: `Attribute.endsBefore_congr` and, for whole start tags,
  `StartTag.keptApart_of_renamed`, `StartTag.keptApart_of_replaced` and
  `StartTag.keptApart_of_added`.
-/

namespace ExtensionAudit.Markup

/-- The characters of plain attribute names: no blank and nothing that ends a name. -/
def isPlainNameChar (c : Char) : Bool :=
  !isBlank c && c != '"' && c != '\'' && c != '=' && c != '>' && c != '/' && c != '{'

/-- Whether a text is a plain attribute name. -/
def IsPlainName (name : Text) : Prop := name ≠ [] ∧ ∀ c ∈ name, isPlainNameChar c = true

instance : DecidablePred IsPlainName := fun name =>
  decidable_of_iff ((!name.isEmpty && name.all isPlainNameChar) = true) (by simp [IsPlainName])

theorem isBlank_of_isPlainNameChar {c : Char} (hc : isPlainNameChar c = true) :
    isBlank c = false := by
  simp only [isPlainNameChar, Bool.and_eq_true, Bool.not_eq_true'] at hc
  exact hc.1.1.1.1.1.1

theorem endsName_of_isPlainNameChar {c : Char} (hc : isPlainNameChar c = true) (r : Text) :
    endsName (c :: r) = false := by
  simp only [isPlainNameChar, Bool.and_eq_true, Bool.not_eq_true', bne_iff_ne, ne_eq] at hc
  obtain ⟨⟨⟨⟨⟨⟨hblank, hdouble⟩, hsingle⟩, heq⟩, hgt⟩, hslash⟩, hbrace⟩ := hc
  simp [endsName_cons, twig?_of_ne_brace hbrace, *]

theorem nameRun_plain {name : Text} (h : ∀ c ∈ name, isPlainNameChar c = true) (next : Text) :
    nameRun (name ++ next) = (name ++ (nameRun next).1, (nameRun next).2) := by
  induction name with
  | nil => rfl
  | cons c name ih =>
    have hc := endsName_of_isPlainNameChar (h c List.mem_cons_self) (name ++ next)
    rw [List.cons_append, nameRun_cons, hc, ih fun d hd => h d (List.mem_cons_of_mem c hd)]
    simp

theorem IsPlainName.isAttributeName {name : Text} (h : IsPlainName name) :
    IsAttributeName name := by
  have hrun := nameRun_plain h.2 []
  rw [List.append_nil] at hrun
  exact .inr ⟨h.1, by simpa [nameRun] using hrun⟩

theorem IsPlainName.ne_stray {name : Text} (h : IsPlainName name) : name ≠ ['='] := by
  rintro rfl
  exact absurd (h.2 '=' List.mem_cons_self) (by decide)

theorem IsPlainName.nameEnds_eq {name : Text} (h : IsPlainName name) (next : Text) :
    nameEnds name next = decide (nameRun next = ([], next)) := by
  have hrun : nameRun (name ++ next) = (name, next) ↔ nameRun next = ([], next) := by
    rw [nameRun_plain h.2, Prod.ext_iff, Prod.ext_iff]
    simp
  simp [nameEnds, h.ne_stray, hrun]

/-! ## What stands behind a piece -/

theorem nameRun_eq_nil_iff {s : Text} : nameRun s = ([], s) ↔ endsName s = true := by
  cases s with
  | nil => exact ⟨fun _ => rfl, fun _ => rfl⟩
  | cons c r =>
    cases hends : endsName (c :: r) <;> simp [nameRun_cons, hends]

/-- Of the text behind it, a name depends on the first character and on whether a name ends in front
of it. -/
theorem nameEnds_congr {name s s' : Text} (hends : endsName s = endsName s')
    (hhead : s.head? = s'.head?) : nameEnds name s = nameEnds name s' := by
  have hrun : nameRun (name ++ s) = (name, s) ↔ nameRun (name ++ s') = (name, s') := by
    induction name with
    | nil => simp only [List.nil_append, nameRun_eq_nil_iff, hends]
    | cons c n ih =>
      have hc : endsName (c :: (n ++ s)) = endsName (c :: (n ++ s')) := by
        cases n with
        | nil =>
          rw [List.nil_append, List.nil_append, endsName_cons, endsName_cons,
            twig?_of_head?_eq hhead, hhead]
        | cons d n => exact endsName_cons_cons c d _ _
      simp only [List.cons_append, nameRun_cons_eq, hc, ih]
  simp only [nameEnds, hrun]

theorem Attribute.endsBefore_congr (a : Attribute) {s s' : Text} (hends : endsName s = endsName s')
    (hhead : s.head? = s'.head?)
    (heq : (s.dropWhile isBlank).head? = some '=' ↔ (s'.dropWhile isBlank).head? = some '=') :
    a.endsBefore s = a.endsBefore s' := by
  cases a with
  | verbatim => rfl
  | named a => simp only [Attribute.endsBefore, nameEnds_congr hends hhead, hhead, ne_eq, heq]

theorem endsName_append_cons {u x x' : Text} {c : Char}
    (h : u ≠ [] ∨ endsName (c :: x) = endsName (c :: x')) :
    endsName (u ++ c :: x) = endsName (u ++ c :: x') := by
  match u with
  | [] => exact h.resolve_left (by simp)
  | [d] => exact endsName_cons_cons d c _ _
  | d :: e :: u => exact endsName_cons_cons d e _ _

theorem head?_append_cons (u x x' : Text) (c : Char) :
    (u ++ c :: x).head? = (u ++ c :: x').head? := by
  cases u <;> rfl

theorem endsRun_append_cons (p : Char → Bool) (u x x' : Text) (c : Char) :
    Text.endsRun p (u ++ c :: x) = Text.endsRun p (u ++ c :: x') := by
  cases u <;> rfl

/-- Behind a blank, what a piece ends in front of may change, if it begins with no `=`. -/
theorem Attribute.endsBefore_blank {e : Char} (he : isBlank e = true) (a : Attribute) (u : Text)
    {x x' : Text} (hx : (x.dropWhile isBlank).head? ≠ some '=')
    (hx' : (x'.dropWhile isBlank).head? ≠ some '=') :
    a.endsBefore (u ++ e :: x) = a.endsBefore (u ++ e :: x') := by
  have hstop : isValueStop e = true := by simp [isValueStop, he]
  refine a.endsBefore_congr (endsName_append_cons (.inr ?_)) (head?_append_cons u x x' e) ?_
  · rw [endsName_of_isValueStop hstop, endsName_of_isValueStop hstop]
  · induction u with
    | nil => simp [he, hx, hx']
    | cons c u ih =>
      simp only [List.cons_append, List.dropWhile_cons]
      cases isBlank c
      · rfl
      · exact ih

/-- Behind what a piece begins with, what the pieces in front end before may change. -/
theorem Attribute.apart_piece {c : Char} {x x' : Text} (hc : isBlank c = false)
    (hx : endsName (c :: x) = endsName (c :: x')) (as : List Attribute) (u : Text) :
    apart as (u ++ c :: x) = apart as (u ++ c :: x') := by
  induction as with
  | nil => rfl
  | cons a as ih =>
    have ha : a.endsBefore (as.flatMap render ++ u ++ c :: x) =
        a.endsBefore (as.flatMap render ++ u ++ c :: x') := by
      refine a.endsBefore_congr (endsName_append_cons (.inr hx)) (head?_append_cons _ _ _ c) ?_
      rw [Text.head?_dropWhile_cons hc]
    simp only [List.append_assoc] at ha
    rw [apart, apart, ha, ih]

theorem Attribute.apart_blank {e : Char} (he : isBlank e = true) (as : List Attribute)
    {x x' : Text} (hx : (x.dropWhile isBlank).head? ≠ some '=')
    (hx' : (x'.dropWhile isBlank).head? ≠ some '=') :
    apart as (e :: x) = apart as (e :: x') := by
  induction as with
  | nil => rfl
  | cons a as ih => rw [apart, apart, a.endsBefore_blank he _ hx hx', ih]

theorem Attribute.apart_append (as bs : List Attribute) (tail : Text) :
    apart (as ++ bs) tail = (apart as (bs.flatMap render ++ tail) && apart bs tail) := by
  induction as with
  | nil => rfl
  | cons a as ih => simp [apart, ih, Bool.and_assoc]

def NamedAttribute.rest (a : NamedAttribute) : Text :=
  match a.value with
  | some value => a.separator ++ a.quote.mark ++ value ++ a.quote.mark
  | none => []

theorem NamedAttribute.body_eq (a : NamedAttribute) :
    (Attribute.named a).body = a.name ++ a.rest := by
  obtain ⟨leading, name, separator, value, quote⟩ := a
  cases value <;> simp [Attribute.body, rest]

theorem NamedAttribute.render_append {a : NamedAttribute} {c : Char} {n : Text}
    (h : a.name = c :: n) (s : Text) :
    (Attribute.named a).render ++ s = a.leading ++ c :: (n ++ (a.rest ++ s)) := by
  rw [Attribute.render, body_eq, h]
  simp [Attribute.leading]

theorem IsPlainName.head?_ne {name : Text} (h : IsPlainName name) {blanks : Text}
    (hb : AllBlank blanks) (x : Text) :
    ((blanks ++ (name ++ x)).dropWhile isBlank).head? ≠ some '=' := by
  obtain ⟨hne, hplain⟩ := h
  obtain ⟨c, name, rfl⟩ := List.exists_cons_of_ne_nil hne
  have hc := hplain c List.mem_cons_self
  simp only [isPlainNameChar, Bool.and_eq_true, Bool.not_eq_true', bne_iff_ne, ne_eq] at hc
  obtain ⟨⟨⟨⟨⟨⟨hblank, -⟩, -⟩, heq⟩, -⟩, -⟩, -⟩ := hc
  have hrun : Text.endsRun isBlank (c :: (name ++ x)) = true := by simp [Text.endsRun, hblank]
  rw [List.cons_append, Text.dropWhile_run hb hrun]
  simpa using heq

/-- A start tag whose parts are kept apart stays so when an attribute that stands behind a blank
takes another plain name. -/
theorem StartTag.keptApart_of_renamed {tag tail new : Text} {as bs : List Attribute}
    {a : NamedAttribute} (hname : IsPlainName a.name) (hnew : IsPlainName new)
    (hl : a.leading ≠ []) (hblank : AllBlank a.leading)
    (h : StartTag.keptApart ⟨tag, as ++ .named a :: bs, tail⟩ = true) :
    StartTag.keptApart ⟨tag, as ++ .named { a with name := new } :: bs, tail⟩ = true := by
  obtain ⟨e, blanks, hleading⟩ := List.exists_cons_of_ne_nil hl
  have he : isBlank e = true := hblank e (by simp [hleading])
  have hb : AllBlank blanks := fun c hc => hblank c (by simp [hleading, hc])
  have hsplit (n : Text) : (Attribute.named { a with name := n } :: bs).flatMap Attribute.render ++
      tail = e :: (blanks ++ (n ++ (a.rest ++ (bs.flatMap Attribute.render ++ tail)))) := by
    have hbody : (Attribute.named { a with name := n }).body = n ++ a.rest :=
      NamedAttribute.body_eq _
    rw [List.flatMap_cons, Attribute.render, hbody]
    simp [Attribute.leading, hleading]
  have hends : (Attribute.named { a with name := new }).endsBefore
      (bs.flatMap Attribute.render ++ tail) =
        (Attribute.named a).endsBefore (bs.flatMap Attribute.render ++ tail) := by
    simp only [Attribute.endsBefore, hname.nameEnds_eq, hnew.nameEnds_eq]
  simp only [StartTag.keptApart, List.flatMap_append, List.append_assoc, Attribute.apart_append,
    Attribute.apart, Bool.and_eq_true] at h ⊢
  obtain ⟨hrun, has, ha, hbs⟩ := h
  rw [hsplit new, hends]
  rw [hsplit a.name] at hrun has
  refine ⟨?_, ?_, ha, hbs⟩
  · rw [← hrun]
    exact endsRun_append_cons ..
  · rw [← has]
    exact Attribute.apart_blank he as (hnew.head?_ne hb _) (hname.head?_ne hb _)

/-- A start tag whose parts are kept apart stays so when the end of a tag is written anew behind the
name of an attribute, if its parts are kept apart. -/
theorem StartTag.keptApart_of_replaced {tag tail tail' : Text} {as bs bs' : List Attribute}
    {a a' : NamedAttribute} (hname : IsPlainName a.name) (hleading : a'.leading = a.leading)
    (hsame : a'.name = a.name)
    (hends : Attribute.apart (.named a' :: bs') tail' = true)
    (h : StartTag.keptApart ⟨tag, as ++ .named a :: bs, tail⟩ = true) :
    StartTag.keptApart ⟨tag, as ++ .named a' :: bs', tail'⟩ = true := by
  obtain ⟨hne, hplain⟩ := hname
  obtain ⟨c, n, hcons⟩ := List.exists_cons_of_ne_nil hne
  have hc : isPlainNameChar c = true := hplain c (by simp [hcons])
  simp only [StartTag.keptApart, List.flatMap_append, List.append_assoc, Attribute.apart_append,
    Bool.and_eq_true] at h ⊢
  obtain ⟨hrun, has, -⟩ := h
  rw [List.flatMap_cons, List.append_assoc, NamedAttribute.render_append hcons] at hrun has
  rw [List.flatMap_cons, List.append_assoc, NamedAttribute.render_append (hsame.trans hcons),
    hleading]
  refine ⟨?_, ?_, hends⟩
  · rw [← hrun]
    simpa only [List.append_assoc] using
      endsRun_append_cons isNameChar (as.flatMap Attribute.render ++ a.leading) _ _ c
  · rw [← has]
    have hplain (r : Text) := endsName_of_isPlainNameChar hc r
    exact Attribute.apart_piece (isBlank_of_isPlainNameChar hc) (by rw [hplain, hplain]) as _

/-! ## Pieces in front of the end of the tag -/

/-- Whether a piece is written up to its separator: its value is empty and not quoted. -/
def Attribute.endsInSeparator : Attribute → Bool
  | .named a => a.value = some [] && a.quote = .none
  | .verbatim _ _ => false

theorem IsTagTail.endsTwig {selfClosing : Bool} {tail : Text} (h : IsTagTail selfClosing tail) :
    tail.head?.any isTwigSecond = false := by
  obtain ⟨blanks, hblanks, rfl⟩ := h
  cases blanks with
  | nil => cases selfClosing <;> rfl
  | cons c blanks =>
    exact isTwigSecond_eq_false (hblanks c List.mem_cons_self) (by decide)

/-- A piece in front of another one still ends there when the end of the tag gives way to a blank. -/
theorem Attribute.endsBefore_piece {b : Attribute} {as : List Attribute} {tail : Text}
    {selfClosing : Bool} (hb : b.Formed) (hends : b.endsBefore (as.flatMap render ++ tail) = true)
    (htail : IsTagTail selfClosing tail) (a : Attribute) (x : Text) :
    a.endsBefore ((b :: as).flatMap render ++ tail) =
      a.endsBefore ((b :: as).flatMap render ++ ' ' :: x) := by
  obtain ⟨hopen, hpiece⟩ := piece_complete [] hb hends
  have hne : b.body ++ (as.flatMap render ++ tail) ≠ [] := by
    intro hnil
    rw [hnil] at hopen
    cases hopen
  obtain ⟨c, w, hbody⟩ := List.exists_cons_of_ne_nil (piece_ne_nil hne hpiece)
  rw [hbody, List.cons_append, ← List.append_assoc] at hopen
  have hsplit (y : Text) : (b :: as).flatMap render ++ y =
      b.leading ++ c :: (w ++ as.flatMap render ++ y) := by
    rw [List.flatMap_cons, Attribute.render, hbody]
    simp
  rw [hsplit, hsplit]
  generalize w ++ as.flatMap render = w' at hopen
  simp only [opensPiece, Bool.and_eq_true, Bool.not_eq_true'] at hopen
  obtain ⟨⟨hblank, -⟩, hslash⟩ := hopen
  refine a.endsBefore_congr (endsName_append_cons (.inr ?_)) (head?_append_cons _ _ _ c) ?_
  · cases w' with
    | nil =>
      -- the one character is no `/` in front of the `>`, and begins no Twig construct
      have htwig : twig? (c :: tail) = none := twig?_cons_of_not_second htail.endsTwig
      have htwig' : twig? (c :: ' ' :: x) = none := twig?_cons_of_not_second rfl
      rw [List.nil_append] at hslash
      rw [List.nil_append, List.nil_append, endsName_cons, endsName_cons, htwig, htwig', hslash]
      simp
    | cons d w' => exact endsName_cons_cons c d _ _
  · rw [Text.head?_dropWhile_cons hblank]

/-- A piece that is written further than its separator ends in front of a blank. -/
theorem Attribute.endsBefore_of_blank {a : Attribute} (ha : a.Formed)
    (hwritten : a.endsInSeparator = false) {x : Text}
    (hx : (x.dropWhile isBlank).head? ≠ some '=') : a.endsBefore (' ' :: x) = true := by
  have hblank : isBlank ' ' = true := by decide
  cases ha with
  | twig => rfl
  | quoted => rfl
  | bare _ hname =>
    have hends := nameEnds_separator hname ⟨' ', x, rfl, .inl hblank⟩
    simp [Attribute.endsBefore, hends, hblank, hx]
  | @valued _ _ _ _ value quote =>
    have hvalue : value = [] → quote ≠ .none := by simpa [endsInSeparator] using hwritten
    cases value with
    | nil => simp [Attribute.endsBefore, hvalue rfl]
    | cons c value => simp [Attribute.endsBefore, hblank]

/-- Pieces are kept apart from a blank in place of the end of the tag, if the last one is written
further than its separator. -/
theorem Attribute.apart_of_tail {as : List Attribute} {tail x : Text} {selfClosing : Bool}
    (hforms : ∀ a ∈ as, a.Formed) (hapart : apart as tail = true)
    (htail : IsTagTail selfClosing tail) (hlast : as.getLast?.any endsInSeparator = false)
    (hx : (x.dropWhile isBlank).head? ≠ some '=') : apart as (' ' :: x) = true := by
  induction as with
  | nil => rfl
  | cons a as ih =>
    obtain ⟨ha, has⟩ := List.forall_mem_cons.mp hforms
    simp only [apart, Bool.and_eq_true] at hapart ⊢
    cases as with
    | nil => exact ⟨endsBefore_of_blank ha (by simpa using hlast) hx, rfl⟩
    | cons b bs =>
      have hends := hapart.2
      simp only [apart, Bool.and_eq_true] at hends
      refine ⟨?_, ih has hapart.2 (by simpa using hlast)⟩
      rw [← endsBefore_piece (has b List.mem_cons_self) hends.1 htail]
      exact hapart.1

/-- A start tag whose parts are kept apart stays so when an attribute is added behind a blank, if the
last piece is written further than its separator. -/
theorem StartTag.keptApart_of_added {t : StartTag} {selfClosing : Bool} (ht : t.Formed selfClosing)
    (hk : t.keptApart = true) (hlast : t.attributes.getLast?.any Attribute.endsInSeparator = false)
    {a : NamedAttribute} (hleading : a.leading = [' ']) (hname : IsPlainName a.name)
    (hends : (Attribute.named a).endsBefore t.tail = true) :
    StartTag.keptApart ⟨t.tag, t.attributes ++ [.named a], t.tail⟩ = true := by
  have hrender : (Attribute.named a).render ++ t.tail = ' ' :: (a.name ++ (a.rest ++ t.tail)) := by
    rw [Attribute.render, NamedAttribute.body_eq]
    simp [Attribute.leading, hleading]
  have hx : ((a.name ++ (a.rest ++ t.tail)).dropWhile isBlank).head? ≠ some '=' :=
    @IsPlainName.head?_ne a.name hname [] (by simp [AllBlank]) _
  simp only [StartTag.keptApart, Bool.and_eq_true] at hk ⊢
  have happend : (t.attributes ++ [Attribute.named a]).flatMap Attribute.render ++ t.tail =
      t.attributes.flatMap Attribute.render ++ ' ' :: (a.name ++ (a.rest ++ t.tail)) := by
    rw [List.flatMap_append, List.append_assoc, ← hrender]
    simp
  rw [happend, Attribute.apart_append, List.flatMap_singleton, hrender]
  refine ⟨?_, ?_⟩
  · cases hattributes : t.attributes.flatMap Attribute.render with
    | nil => rfl
    | cons c r =>
      rw [hattributes] at hk
      exact hk.1
  · rw [Attribute.apart_of_tail ht.attributes hk.2 ht.tail hlast hx]
    simp [Attribute.apart, hends]

end ExtensionAudit.Markup
