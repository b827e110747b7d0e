import ExtensionAudit.Proofs.Markup.Piece
import ExtensionAudit.Proofs.Markup.Scanning
/-
  Start tags by positions. An attribute name is looked for by its byte positions in the
  rest of the source, and a name that ends where it begins takes the character there, so
  that a stray `=` or `/` is a name by itself and every turn of the tag moves on.

  Main statements: `takeName_frontOf`, `takePiece_frontOf` and `tagLoop_frontOf`.
-/

namespace ExtensionAudit.Markup

open Position

variable {src s : Text} {c : Char}

/-! ## Names -/

theorem endsNameAt_eq (front : Text) (c : Char) (r : Text) :
    endsNameAt (front ++ c :: r) front.size c = .ok (endsName (c :: r)) := by
  have hends : endsName (c :: r) = ((c = '/' && r.head? = some '>') ||
      (isBlank c || c = '>' || c = '=' || c = '"' || c = '\'') || (twig? (c :: r)).isSome) := by
    rw [endsName_cons]
    simp only [Bool.or_assoc]
  rw [endsNameAt, hends]
  cases (isBlank c || c = '>' || c = '=' || c = '"' || c = '\'') with
  | true =>
    rw [Bool.or_true]
    rfl
  | false =>
    rw [sliceFrom_size, Bool.or_false]
    by_cases hslash : c = '/'
    · subst hslash
      have hbehind := sliceFrom_size (front ++ ['/']) r
      have hsize : Text.size (front ++ ['/']) = front.size + 1 := Text.size_append front ['/']
      rw [List.append_assoc, List.singleton_append, hsize] at hbehind
      rw [hbehind]
      show (if (r.head? == some '>') = true then _ else _) = _
      by_cases hhead : r.head? = some '>'
      · simp only [hhead, beq_self_eq_true, if_true, decide_true, Bool.and_self, Bool.true_or]
        rfl
      · simp only [hhead, beq_eq_false_iff_ne.mpr hhead, Bool.false_eq_true, if_false,
          decide_false, Bool.and_false, Bool.false_or]
        rfl
    · simp only [hslash, if_false, decide_false, Bool.false_and, Bool.false_or]
      rfl

theorem nameEnd_eq (front s : Text) : ∃ found, nameEnd (front ++ s) front.size s = .ok found ∧
    found.getD (Text.size (front ++ s)) = front.size + Text.size (nameRun s).1 := by
  induction s generalizing front with
  | nil => exact ⟨none, rfl, by simp [nameRun]⟩
  | cons c r ih =>
    rw [nameEnd, endsNameAt_eq, nameRun_cons]
    cases endsName (c :: r) with
    | true => exact ⟨some front.size, rfl, rfl⟩
    | false =>
      obtain ⟨found, hfound, hsize⟩ := ih (front ++ [c])
      refine ⟨found, ?_, ?_⟩
      · show nameEnd (front ++ c :: r) (front.size + c.utf8Size) r = _
        simpa using hfound
      · simpa [Nat.add_assoc] using hsize

theorem size_attributeName (hs : s ≠ []) :
    Text.size (attributeName s).1 =
      if Text.size (nameRun s).1 = 0 then s.head?.elim 0 Char.utf8Size
      else Text.size (nameRun s).1 := by
  have happend := nameRun_append s
  simp only [Text.size_eq_zero]
  unfold attributeName
  split
  · rename_i c r hrun
    rw [hrun] at happend ⊢
    obtain rfl : c :: r = s := happend
    simp
  · rename_i hrun
    rw [if_neg]
    intro hnil
    obtain ⟨c, r, rfl⟩ := List.exists_cons_of_ne_nil hs
    rw [hnil] at happend
    exact hrun c r (Prod.ext hnil happend)

/-! ## Attributes -/

theorem takeName_frontOf (h : s <:+ src) (hs : s ≠ []) : (frontOf src s).takeName src =
    .ok ((attributeName s).1, frontOf src (attributeName s).2) := by
  obtain ⟨found, hfound, hsize⟩ := nameEnd_eq [] s
  rw [List.nil_append, Text.size_nil] at hfound
  rw [List.nil_append, Text.size_nil, Nat.zero_add] at hsize
  rw [takeName, rest_frontOf h, ok_bind, hfound, ok_bind, peek_frontOf h, ok_bind, hsize,
    ← size_attributeName hs]
  exact take_frontOf h (attributeName_append s)

theorem takeAttribute_frontOf (h : s <:+ src) (hs : s ≠ []) (tagStart leading : Text) :
    (frontOf src s).takeAttribute src leading (lineAt src tagStart) =
      located src (namedAttribute tagStart leading s) := by
  have hr := suffix_behind h (attributeName_append s)
  rw [takeAttribute, takeName_frontOf h hs, ok_bind, namedAttribute]
  revert hr
  generalize attributeName s = cut
  obtain ⟨name, r⟩ := cut
  intro hr
  dsimp only at hr ⊢
  rw [rest_frontOf hr, ok_bind]
  show (if (r.dropWhile isBlank).head? = some '=' then _ else _) = _
  by_cases hequals : (r.dropWhile isBlank).head? = some '='
  · obtain ⟨r', hr'⟩ := List.head?_eq_some_iff.mp hequals
    have hseparator : '=' :: r' <:+ src := hr' ▸ (List.dropWhile_suffix isBlank).trans hr
    have hbehind : r' <:+ src := (List.suffix_cons '=' r').trans hseparator
    have hvalue : r'.dropWhile isBlank <:+ src := (List.dropWhile_suffix isBlank).trans hbehind
    rw [if_pos hequals, hr']
    show ((frontOf src r).takeWhile src isBlank >>= _) = _
    rw [takeWhile_frontOf isBlank hr, hr']
    show ((frontOf src ('=' :: r')).take src '='.utf8Size >>= _) = _
    rw [take_char hseparator]
    show ((frontOf src r').takeWhile src isBlank >>= _) = _
    rw [takeWhile_frontOf isBlank hbehind]
    show (if (frontOf src (r'.dropWhile isBlank)).atEnd src = true then _ else _) = _
    rw [atEnd_frontOf hvalue]
    by_cases hnil : r'.dropWhile isBlank = []
    · simp only [hnil, List.isEmpty_nil, if_true]
      rfl
    · rw [if_neg (by simpa using hnil)]
      show ((frontOf src (r'.dropWhile isBlank)).takeValue src _ >>= _) = _
      rw [takeValue_frontOf hvalue hnil]
      show _ = located src (Except.map _ (attributeValue tagStart (r'.dropWhile isBlank)))
      cases attributeValue tagStart (r'.dropWhile isBlank) with
      | error cut => rfl
      | ok found => simp [Except.map, located, bind, Except.bind, pure, Except.pure]
  · rw [if_neg hequals]
    split
    · rename_i r' hr'
      exact absurd (by rw [hr']; rfl) hequals
    · rfl

theorem takePiece_frontOf (h : s <:+ src) (hs : s ≠ []) (tagStart leading : Text) :
    (frontOf src s).takePiece src leading (lineAt src tagStart) =
      located src (piece tagStart leading s) := by
  rw [takePiece, takeTwig_frontOf h]
  unfold piece
  cases htwig : twig? s with
  | some v =>
    dsimp only
    cases v.take s <;> rfl
  | none =>
    show ((frontOf src s).peek src >>= _) = _
    rw [peek_frontOf h]
    dsimp only
    split
    · show ((frontOf src ('"' :: _)).takeQuoted src '"' (lineAt src tagStart) >>= _) = _
      rw [takeQuoted_frontOf rfl h]
      cases quoted '"' ⟨.attributeValue, tagStart⟩ _ <;> rfl
    · show ((frontOf src ('\'' :: _)).takeQuoted src '\'' (lineAt src tagStart) >>= _) = _
      rw [takeQuoted_frontOf rfl h]
      cases quoted '\'' ⟨.attributeValue, tagStart⟩ _ <;> rfl
    · rename_i hdouble hsingle
      rw [ok_bind, quotation?_eq_none hdouble hsingle]
      exact takeAttribute_frontOf h hs tagStart leading

/-! ## The whole tag -/

theorem tagLoop_of_piece {tagStart r : Text} {seen : List Attribute} (h : s <:+ src)
    (hs : s.dropWhile isBlank = c :: r) (hgt : ∀ r', c :: r ≠ '>' :: r')
    (hslash : ∀ r', c :: r ≠ '/' :: '>' :: r') :
    tagLoop src (lineAt src tagStart) seen (frontOf src s) =
      match piece tagStart (s.takeWhile isBlank) (c :: r) with
      | .error cut => .error (report src cut)
      | .ok (a, rest) =>
        if (frontOf src s).MovesTo src (frontOf src rest) then
          tagLoop src (lineAt src tagStart) (a :: seen) (frontOf src rest)
        else .error .stuck := by
  have hbehind : c :: r <:+ src := hs ▸ (List.dropWhile_suffix isBlank).trans h
  rw [tagLoop, takeWhile_frontOf isBlank h, hs]
  show (if (frontOf src (c :: r)).atEnd src = true then _ else _) = _
  rw [atEnd_frontOf hbehind]
  show ((frontOf src (c :: r)).rest src >>= _) = _
  rw [rest_frontOf hbehind, ok_bind]
  split
  · rename_i hfront
    exact absurd hfront (hgt _)
  · rename_i hfront
    exact absurd hfront (hslash _)
  · rw [takePiece_frontOf hbehind (by simp)]
    cases piece tagStart (s.takeWhile isBlank) (c :: r) <;> rfl

/-- Every turn of a start tag moves on, whatever it takes. -/
theorem tagLoop_frontOf (tagStart : Text) (seen : List Attribute) (h : s <:+ src) :
    tagLoop src (lineAt src tagStart) seen (frontOf src s) =
      located src ((attributesOnto tagStart seen s).map fun found =>
        ((found.attributes, found.tail, found.selfClosing), found.rest)) := by
  fun_induction attributesOnto tagStart seen s with
  | case1 seen s hs =>
    have hend : [] <:+ src := List.nil_suffix
    rw [tagLoop, takeWhile_frontOf isBlank h, hs]
    show (if (frontOf src []).atEnd src = true then _ else _) = _
    rw [atEnd_frontOf hend]
    rfl
  | case2 seen s r hs =>
    have hend : '>' :: r <:+ src := hs ▸ (List.dropWhile_suffix isBlank).trans h
    rw [tagLoop, takeWhile_frontOf isBlank h, hs]
    show (if (frontOf src ('>' :: r)).atEnd src = true then _ else _) = _
    rw [atEnd_frontOf hend]
    show ((frontOf src ('>' :: r)).rest src >>= _) = _
    rw [rest_frontOf hend]
    show ((frontOf src ('>' :: r)).take src '>'.utf8Size >>= _) = _
    rw [take_char hend]
    rfl
  | case3 seen s r hs =>
    have hend : '/' :: '>' :: r <:+ src := hs ▸ (List.dropWhile_suffix isBlank).trans h
    rw [tagLoop, takeWhile_frontOf isBlank h, hs]
    show (if (frontOf src ('/' :: '>' :: r)).atEnd src = true then _ else _) = _
    rw [atEnd_frontOf hend]
    show ((frontOf src ('/' :: '>' :: r)).rest src >>= _) = _
    rw [rest_frontOf hend]
    show ((frontOf src ('/' :: '>' :: r)).take src (Text.size ['/', '>']) >>= _) = _
    rw [take_frontOf hend rfl]
    rfl
  | case4 seen s c r hgt hslash hs cut hpiece =>
    rw [tagLoop_of_piece h hs (by simpa using hgt) (by simpa using hslash), hpiece]
    rfl
  | case5 seen s c r hgt hslash hs a rest hpiece ih =>
    have happend := (piece_append hpiece).2
    have hsplit : (s.takeWhile isBlank ++ a.body) ++ rest = s := by
      rw [List.append_assoc, happend, ← hs, List.takeWhile_append_dropWhile]
    -- a piece is not empty, so the loop goes on
    have hmoves := movesTo_frontOf h hsplit (by simp [piece_ne_nil (by simp) hpiece])
    rw [tagLoop_of_piece h hs (by simpa using hgt) (by simpa using hslash), hpiece]
    dsimp only
    rw [if_pos hmoves]
    exact ih (suffix_behind h hsplit)

end ExtensionAudit.Markup
