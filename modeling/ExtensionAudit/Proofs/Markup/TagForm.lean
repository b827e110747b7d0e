import ExtensionAudit.Proofs.Markup.Piece
/-
  Start tags as a grammar. A start tag is a name, pieces and an end, and it is
  read back as it was written when its parts are kept apart: the name ends in
  front of the pieces, and each piece in front of the next one. This is settled
  inside the tag, whatever stands behind it.

  Main statement: `attributes_eq_ok_iff`, which pieces and which end are read off
  a text. `StartTag.Formed` and `StartTag.keptApart` say the same of whole tags.
-/

namespace ExtensionAudit.Markup

/-- Whether each piece ends in front of the next one, and the last in front of `tail`. -/
def Attribute.apart : List Attribute → Text → Bool
  | [], _ => true
  | a :: as, tail => a.endsBefore (as.flatMap Attribute.render ++ tail) && apart as tail

/-- Whether a text ends a start tag: blanks, and `>` or `/>`. -/
def IsTagTail (selfClosing : Bool) (tail : Text) : Prop :=
  ∃ blanks, AllBlank blanks ∧ tail = blanks ++ if selfClosing then ['/', '>'] else ['>']

theorem IsTagTail.exists_append {selfClosing : Bool} {tail : Text}
    (h : IsTagTail selfClosing tail) : ∃ u, tail = u ++ ['>'] := by
  obtain ⟨blanks, -, rfl⟩ := h
  cases selfClosing with
  | false => exact ⟨blanks, rfl⟩
  | true => exact ⟨blanks ++ ['/'], by simp⟩

/-! ## What stands behind the tag does not matter -/

theorem endsName_of_isValueStop {c : Char} (hc : isValueStop c = true) (r : Text) :
    endsName (c :: r) = true := by
  simp only [isValueStop, Bool.or_eq_true, decide_eq_true_eq] at hc
  rw [endsName_cons]
  rcases hc with hc | hc <;> simp [hc]

theorem nameRun_closed {e : Char} (he : isValueStop e = true) (u rest : Text) :
    nameRun (u ++ e :: rest) = ((nameRun (u ++ [e])).1, (nameRun (u ++ [e])).2 ++ rest) := by
  induction u with
  | nil => simp [nameRun_cons, endsName_of_isValueStop he]
  | cons c u ih =>
    have hc : endsName (c :: (u ++ e :: rest)) = endsName (c :: (u ++ [e])) := by
      cases u with
      | nil => exact endsName_cons_cons c e _ _
      | cons d u => exact endsName_cons_cons c d _ _
    simp only [List.cons_append, nameRun_cons, hc, ih]
    cases endsName (c :: (u ++ [e])) <;> simp

theorem nameEnds_closed {e : Char} (he : isValueStop e = true) (name u rest : Text) :
    nameEnds name (u ++ e :: rest) = nameEnds name (u ++ [e]) := by
  have hrun : nameRun (name ++ (u ++ e :: rest)) = (name, u ++ e :: rest) ↔
      nameRun (name ++ (u ++ [e])) = (name, u ++ [e]) := by
    have h := nameRun_closed he (name ++ u) rest
    have hsplit : u ++ e :: rest = u ++ [e] ++ rest := by simp
    rw [← List.append_assoc, h, hsplit, List.append_assoc name, Prod.ext_iff, Prod.ext_iff]
    simp only [List.append_left_inj]
  simp only [nameEnds, hrun]

/-- A piece is read up to here, or further, whatever stands behind the end of the tag. -/
theorem Attribute.endsBefore_closed (a : Attribute) (u rest : Text) :
    a.endsBefore (u ++ '>' :: rest) = a.endsBefore (u ++ ['>']) := by
  cases a with
  | verbatim => rfl
  | named a =>
    have hdrop : ((u ++ '>' :: rest).dropWhile isBlank).head? =
        ((u ++ ['>']).dropWhile isBlank).head? :=
      Text.head?_dropWhile_cons (by decide) u rest []
    have hhead : (u ++ '>' :: rest).head? = (u ++ ['>']).head? := by
      cases u <;> rfl
    have hgt : isValueStop '>' = true := by decide
    simp only [Attribute.endsBefore, nameEnds_closed hgt, hdrop, hhead]

theorem Attribute.apart_closed (as : List Attribute) (u rest : Text) :
    apart as (u ++ '>' :: rest) = apart as (u ++ ['>']) := by
  induction as with
  | nil => rfl
  | cons a as ih =>
    have ha := a.endsBefore_closed (as.flatMap Attribute.render ++ u) rest
    simp only [List.append_assoc] at ha
    simp only [apart, ih, ha]

theorem Attribute.apart_tail {as : List Attribute} {tail : Text} {selfClosing : Bool}
    (htail : IsTagTail selfClosing tail) (rest : Text) :
    apart as (tail ++ rest) = apart as tail := by
  obtain ⟨u, rfl⟩ := htail.exists_append
  rw [List.append_assoc, List.singleton_append]
  exact apart_closed as u rest

/-! ## Reading the pieces -/

section Reading

variable {tagStart s : Text} {seen : List Attribute}

theorem attributesOnto_nil : attributesOnto tagStart seen [] = .error ⟨.startTag, tagStart⟩ := by
  rw [attributesOnto]
  rfl

theorem attributesOnto_end {r : Text} (hs : s.dropWhile isBlank = '>' :: r) :
    attributesOnto tagStart seen s =
      .ok ⟨seen.reverse, s.takeWhile isBlank ++ ['>'], false, r⟩ := by
  rw [attributesOnto]
  split <;> simp_all

theorem attributesOnto_selfClosing {r : Text} (hs : s.dropWhile isBlank = '/' :: '>' :: r) :
    attributesOnto tagStart seen s =
      .ok ⟨seen.reverse, s.takeWhile isBlank ++ ['/', '>'], true, r⟩ := by
  rw [attributesOnto]
  split <;> simp_all

theorem attributesOnto_eq_bind {r : Text} (hs : s.dropWhile isBlank = r)
    (hopen : opensPiece r = true) :
    attributesOnto tagStart seen s = piece tagStart (s.takeWhile isBlank) r >>= fun (a, rest) =>
      attributesOnto tagStart (a :: seen) rest := by
  subst hs
  rw [attributesOnto]
  split
  · rename_i hs
    rw [hs] at hopen
    cases hopen
  · rename_i hs
    rw [hs] at hopen
    simp [opensPiece] at hopen
  · rename_i hs
    rw [hs] at hopen
    simp [opensPiece] at hopen
  · rename_i hs
    rw [hs]
    split
    · rename_i herr
      rw [herr]
      rfl
    · rename_i hok
      rw [hok]
      rfl

theorem attributesOnto_piece {r rest : Text} {a : Attribute} (hs : s.dropWhile isBlank = r)
    (hopen : opensPiece r = true) (ha : piece tagStart (s.takeWhile isBlank) r = .ok (a, rest)) :
    attributesOnto tagStart seen s = attributesOnto tagStart (a :: seen) rest := by
  rw [attributesOnto_eq_bind hs hopen, ha]
  rfl

theorem exists_of_attributesOnto {r : Text} {found : TagEnd} (hs : s.dropWhile isBlank = r)
    (hopen : opensPiece r = true) (h : attributesOnto tagStart seen s = .ok found) :
    ∃ a rest, piece tagStart (s.takeWhile isBlank) r = .ok (a, rest) ∧
      attributesOnto tagStart (a :: seen) rest = .ok found := by
  rw [attributesOnto_eq_bind hs hopen] at h
  obtain ⟨⟨a, rest⟩, ha, h⟩ := bind_eq_ok.mp h
  exact ⟨a, rest, ha, h⟩

/-- Behind the blanks a piece begins, if there is something that is no end of the tag. -/
theorem opensPiece_dropWhile {c : Char} {r : Text} (hs : s.dropWhile isBlank = c :: r)
    (hgt : c ≠ '>') (hslash : ∀ r', c = '/' → r ≠ '>' :: r') : opensPiece (c :: r) = true := by
  have hblank : isBlank c = false := by
    have := Text.endsRun_dropWhile isBlank s
    simpa [Text.endsRun, hs] using this
  have hno : (decide (c = '/') && decide (r.head? = some '>')) = false := by
    simp only [Bool.and_eq_false_iff, decide_eq_false_iff_not]
    refine Classical.not_and_iff_not_or_not.mp fun hcd => ?_
    obtain ⟨r', hr⟩ := List.head?_eq_some_iff.mp hcd.2
    exact hslash r' hcd.1 hr
  simp [opensPiece, hblank, hno, hgt]

theorem attributesOnto_sound {found : TagEnd} (h : attributesOnto tagStart seen s = .ok found) :
    ∃ as, found.attributes = seen.reverse ++ as ∧
      s = as.flatMap Attribute.render ++ (found.tail ++ found.rest) ∧
      (∀ a ∈ as, a.Formed) ∧ Attribute.apart as (found.tail ++ found.rest) = true ∧
      IsTagTail found.selfClosing found.tail := by
  fun_induction attributesOnto tagStart seen s with
  | case1 => simp at h
  | case2 seen s r hs =>
    simp only [Except.ok.injEq] at h
    subst h
    refine ⟨[], by simp, ?_, by simp, rfl, _, fun _ => Text.mem_takeWhile, rfl⟩
    rw [List.flatMap_nil, List.nil_append, List.append_assoc, List.singleton_append, ← hs,
      List.takeWhile_append_dropWhile]
  | case3 seen s r hs =>
    simp only [Except.ok.injEq] at h
    subst h
    refine ⟨[], by simp, ?_, by simp, rfl, _, fun _ => Text.mem_takeWhile, rfl⟩
    rw [List.flatMap_nil, List.nil_append, List.append_assoc, List.cons_append,
      List.singleton_append, ← hs, List.takeWhile_append_dropWhile]
  | case4 => simp at h
  | case5 seen s c r hgt hslash hs a rest ha ih =>
    obtain ⟨as, hfound, hrest, hforms, hapart, htail⟩ := ih h
    -- the end of the tag still stands behind the piece
    have hne : rest ≠ [] := by
      rintro rfl
      rw [attributesOnto_nil] at h
      cases h
    obtain ⟨hform, hends⟩ :=
      piece_sound (fun _ => Text.mem_takeWhile) (opensPiece_dropWhile hs hgt hslash) ha
    obtain ⟨hleading, hbody⟩ := piece_append ha
    refine ⟨a :: as, by simp [hfound], ?_, ?_, ?_, htail⟩
    · have hsplit := List.takeWhile_append_dropWhile (p := isBlank) (l := s)
      rw [hs, ← hbody, ← hleading, hrest] at hsplit
      rw [← hsplit]
      simp [Attribute.render]
    · simpa using ⟨hform, hforms⟩
    · rw [Attribute.apart, hapart, Bool.and_true, ← hrest]
      exact hends hne

theorem Attribute.Formed.cut_leading {a : Attribute} (hform : a.Formed) {next : Text}
    (hends : a.endsBefore next = true) :
    (a.leading ++ (a.body ++ next)).dropWhile isBlank = a.body ++ next ∧
      (a.leading ++ (a.body ++ next)).takeWhile isBlank = a.leading := by
  obtain ⟨hopen, -⟩ := piece_complete [] hform hends
  have hrun : Text.endsRun isBlank (a.body ++ next) = true := by
    cases hb : a.body ++ next with
    | nil => rfl
    | cons c r =>
      rw [hb] at hopen
      simp only [opensPiece, Bool.and_eq_true, Bool.not_eq_true'] at hopen
      simp [Text.endsRun, hopen.1.1]
  exact ⟨Text.dropWhile_run hform.leading_blank hrun, Text.takeWhile_run hform.leading_blank hrun⟩

theorem attributesOnto_before {as : List Attribute} (hforms : ∀ a ∈ as, a.Formed)
    (hapart : Attribute.apart as s = true) :
    attributesOnto tagStart seen (as.flatMap Attribute.render ++ s) =
      attributesOnto tagStart (as.reverse ++ seen) s := by
  induction as generalizing seen with
  | nil => rfl
  | cons a as ih =>
    simp only [Attribute.apart, Bool.and_eq_true] at hapart
    have hform := hforms a List.mem_cons_self
    obtain ⟨hopen, hpiece⟩ := piece_complete tagStart hform hapart.1
    obtain ⟨hd, ht⟩ := hform.cut_leading hapart.1
    have hsplit : (a :: as).flatMap Attribute.render ++ s =
        a.leading ++ (a.body ++ (as.flatMap Attribute.render ++ s)) := by
      simp [Attribute.render]
    rw [hsplit, attributesOnto_piece hd hopen (by rw [ht]; exact hpiece),
      ih (fun b hb => hforms b (List.mem_cons_of_mem a hb)) hapart.2]
    simp

theorem attributesOnto_tail {tail rest : Text} {selfClosing : Bool}
    (htail : IsTagTail selfClosing tail) :
    attributesOnto tagStart seen (tail ++ rest) = .ok ⟨seen.reverse, tail, selfClosing, rest⟩ := by
  obtain ⟨blanks, hblanks, rfl⟩ := htail
  cases selfClosing with
  | false =>
    have hrun : Text.endsRun isBlank ('>' :: rest) = true := by
      show (!isBlank '>') = true
      decide
    have hd := Text.dropWhile_run hblanks hrun
    have ht := Text.takeWhile_run hblanks hrun
    simp only [Bool.false_eq_true, if_false, List.append_assoc, List.singleton_append]
    rw [attributesOnto_end hd, ht]
  | true =>
    have hrun : Text.endsRun isBlank ('/' :: '>' :: rest) = true := by
      show (!isBlank '/') = true
      decide
    have hd := Text.dropWhile_run hblanks hrun
    have ht := Text.takeWhile_run hblanks hrun
    simp only [if_true, List.append_assoc, List.cons_append, List.nil_append]
    rw [attributesOnto_selfClosing hd, ht]

theorem attributesOnto_complete {as : List Attribute} {tail rest : Text} {selfClosing : Bool}
    (hforms : ∀ a ∈ as, a.Formed) (hapart : Attribute.apart as (tail ++ rest) = true)
    (htail : IsTagTail selfClosing tail) :
    attributesOnto tagStart seen (as.flatMap Attribute.render ++ (tail ++ rest)) =
      .ok ⟨seen.reverse ++ as, tail, selfClosing, rest⟩ := by
  rw [attributesOnto_before hforms hapart, attributesOnto_tail htail]
  simp

/-- The pieces and the end that are read off a text are those it is written with, if they have
their forms and are kept apart. -/
theorem attributes_eq_ok_iff {found : TagEnd} :
    attributes tagStart s = .ok found ↔
      s = found.attributes.flatMap Attribute.render ++ (found.tail ++ found.rest) ∧
        (∀ a ∈ found.attributes, a.Formed) ∧
        Attribute.apart found.attributes found.tail = true ∧
        IsTagTail found.selfClosing found.tail := by
  constructor
  · intro h
    obtain ⟨as, has, hs, hforms, hapart, htail⟩ := attributesOnto_sound h
    rw [List.reverse_nil, List.nil_append] at has
    subst has
    exact ⟨hs, hforms, Attribute.apart_tail htail found.rest ▸ hapart, htail⟩
  · rintro ⟨hs, hforms, hapart, htail⟩
    rw [← Attribute.apart_tail htail found.rest] at hapart
    rw [attributes, hs, attributesOnto_complete hforms hapart htail]
    simp

end Reading

/-! ## Whole start tags -/

/-- Whether a text is a tag name: a letter, and characters that a name goes on with. -/
def IsTagName (name : Text) : Prop :=
  ∃ c r, name = c :: r ∧ c.isAlpha = true ∧ ∀ d ∈ r, isNameChar d = true

instance : DecidablePred IsTagName
  | [] => isFalse (by rintro ⟨c, r, h, -⟩; cases h)
  | c :: r => decidable_of_iff ((c.isAlpha && r.all isNameChar) = true) <| by
      simp only [Bool.and_eq_true, List.all_eq_true]
      exact ⟨fun h => ⟨c, r, rfl, h⟩, by rintro ⟨c', r', h, hr⟩; cases h; exact hr⟩

theorem isNameChar_of_isAlpha {c : Char} (h : c.isAlpha = true) : isNameChar c = true := by
  simp [isNameChar, Char.isAlphanum, h]

theorem IsTagName.isNameChar {name : Text} (h : IsTagName name) :
    ∀ c ∈ name, isNameChar c = true := by
  obtain ⟨c, r, rfl, hc, hr⟩ := h
  intro d hd
  rcases List.mem_cons.mp hd with rfl | hd
  · exact isNameChar_of_isAlpha hc
  · exact hr d hd

/-- The form of a start tag: its name, its pieces and its end have their forms. -/
structure StartTag.Formed (t : StartTag) (selfClosing : Bool) : Prop where
  name : IsTagName t.tag
  attributes : ∀ a ∈ t.attributes, a.Formed
  tail : IsTagTail selfClosing t.tail

/-- Whether the parts of a start tag are kept apart: the name ends in front of what follows it,
and so does each piece. -/
def StartTag.keptApart (t : StartTag) : Bool :=
  Text.endsRun isNameChar (t.attributes.flatMap Attribute.render ++ t.tail) &&
    Attribute.apart t.attributes t.tail

end ExtensionAudit.Markup
