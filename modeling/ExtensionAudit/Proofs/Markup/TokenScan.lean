import ExtensionAudit.Proofs.Markup.RawText
import ExtensionAudit.Proofs.Markup.TagScan
/-
  Whole sources by positions. Where the end of raw text is found in a copy in lower
  case it stands in the source: changing the case of a character changes none of the
  bytes in front of it. So the scan never takes a slice that is not inside of the
  source, and never takes a turn that does not move on.

  Main statements: `findText?_lowered`, `takeToken_frontOf` and `scan_eq_parse`.
-/

namespace ExtensionAudit

/-! ## Lower case -/

theorem utf8Size_of_isAlpha {c : Char} (h : c.isAlpha = true) : c.utf8Size = 1 := by
  have hlast : c.val.toNat ≤ 127 := by
    rcases (Bool.or_eq_true _ _).mp h with hupper | hlower
    · have hbounds : c.val ≥ 'A'.val ∧ c.val ≤ 'Z'.val := of_decide_eq_true hupper
      exact Nat.le_trans hbounds.2 (by decide)
    · have hbound : c.val ≤ 'z'.val := of_decide_eq_true ((Bool.and_eq_true _ _).mp hlower).2
      exact Nat.le_trans hbound (by decide)
  exact Char.utf8Size_eq_one_iff.mpr hlast

theorem isAlpha_of_isUpper {c : Char} (h : c.isUpper = true) : c.isAlpha = true :=
  (Bool.or_eq_true _ _).mpr (.inl h)

theorem isAlpha_of_isLower {c : Char} (h : c.isLower = true) : c.isAlpha = true :=
  (Bool.or_eq_true _ _).mpr (.inr h)

/-- A character is in lower case already, or an upper case letter that becomes a lower case one. -/
theorem toLower_eq_self_or (c : Char) :
    c.toLower = c ∨ c.isUpper = true ∧ c.toLower.isLower = true := by
  by_cases hbounds : c.val ≥ 'A'.val ∧ c.val ≤ 'Z'.val
  · refine .inr ⟨decide_eq_true hbounds, ?_⟩
    have hval : c.toLower.val = c.val + ('a'.val - 'A'.val) := by
      unfold Char.toLower
      rw [dif_pos hbounds]
    have hfirst : 65 ≤ c.val.toNat := hbounds.1
    have hlast : c.val.toNat ≤ 90 := hbounds.2
    have hshift : ('a'.val - 'A'.val).toNat = 32 := by decide
    have hnat : c.toLower.val.toNat = c.val.toNat + 32 := by
      rw [hval, UInt32.toNat_add, hshift]
      omega
    have hlower : 97 ≤ c.toLower.val.toNat ∧ c.toLower.val.toNat ≤ 122 := by omega
    exact (Bool.and_eq_true _ _).mpr ⟨decide_eq_true hlower.1, decide_eq_true hlower.2⟩
  · left
    unfold Char.toLower
    rw [dif_neg hbounds]

theorem utf8Size_toLower (c : Char) : c.toLower.utf8Size = c.utf8Size := by
  rcases toLower_eq_self_or c with heq | ⟨hupper, hlower⟩
  · rw [heq]
  · rw [utf8Size_of_isAlpha (isAlpha_of_isLower hlower),
      utf8Size_of_isAlpha (isAlpha_of_isUpper hupper)]

theorem toLower_eq_iff {c d : Char} (hd : d.isAlpha = false) : c.toLower = d ↔ c = d := by
  rcases toLower_eq_self_or c with heq | ⟨hupper, hlower⟩
  · rw [heq]
  · constructor
    · rintro rfl
      rw [isAlpha_of_isLower hlower] at hd
      cases hd
    · rintro rfl
      rw [isAlpha_of_isUpper hupper] at hd
      cases hd

namespace Markup

open Position

variable {src s : Text}

/-- An end tag begins where the copy in lower case goes on with `</` and the tag. -/
theorem isPrefixOf_lowered (tag s : Text) :
    ('<' :: '/' :: tag.map Char.toLower).isPrefixOf (s.map Char.toLower) = startsClose tag s := by
  rw [Bool.eq_iff_iff, List.isPrefixOf_iff_prefix, startsClose_iff]
  constructor
  · rintro ⟨back, hback⟩
    obtain ⟨c, s, rfl, hc, hs⟩ := List.map_eq_cons_iff.mp hback.symm
    obtain ⟨d, s, rfl, hd, hs⟩ := List.map_eq_cons_iff.mp hs
    obtain ⟨spelled, back, rfl, hspelled, -⟩ := List.map_eq_append_iff.mp hs
    obtain rfl := (toLower_eq_iff (by decide)).mp hc
    obtain rfl := (toLower_eq_iff (by decide)).mp hd
    exact ⟨spelled, back, rfl, Text.sameIgnoringCase_iff.mpr hspelled⟩
  · rintro ⟨spelled, back, rfl, hspelled⟩
    refine ⟨back.map Char.toLower, ?_⟩
    rw [← Text.sameIgnoringCase_iff.mp hspelled]
    simp

/-- The end of raw text is found in the copy where it stands in the source. -/
theorem findText?_lowered (tag seen s : Text) :
    match rawContentOnto tag seen s with
    | none => Text.findText? ('<' :: '/' :: tag.map Char.toLower) (s.map Char.toLower) = none
    | some (content, _) =>
      ∃ i, Text.findText? ('<' :: '/' :: tag.map Char.toLower) (s.map Char.toLower) = some i ∧
        seen.size + i = content.size := by
  induction s generalizing seen with
  | nil => rfl
  | cons c r ih =>
    rw [rawContentOnto, List.map_cons, Text.findText?, ← List.map_cons, isPrefixOf_lowered]
    cases startsClose tag (c :: r) with
    | true => exact ⟨0, rfl, by simp⟩
    | false =>
      have hrest := ih (c :: seen)
      simp only [Bool.false_eq_true, if_false]
      revert hrest
      cases rawContentOnto tag (c :: seen) r with
      | none => exact fun hnone => by rw [hnone]; rfl
      | some cut =>
        rintro ⟨i, hi, hsize⟩
        refine ⟨c.utf8Size + i, by rw [hi, utf8Size_toLower]; rfl, ?_⟩
        rw [← hsize, Text.size_cons]
        omega

/-! ## End tags and raw text are read alike -/

theorem takeEndOfTag_frontOf (construct : Construct) (line : Nat) (h : s <:+ src) :
    (frontOf src s).takeEndOfTag src construct line =
      match endTag? s with
      | none => .error (.unterminated ⟨construct, line⟩)
      | some (name, trailing, rest) => .ok ((name, trailing), frontOf src rest) := by
  have hname := (List.dropWhile_suffix isNameChar).trans h
  have hend := (List.dropWhile_suffix (· != '>')).trans hname
  have hstop := List.head?_dropWhile_not (· != '>') (s.dropWhile isNameChar)
  rw [takeEndOfTag, takeWhile_frontOf isNameChar h]
  show ((frontOf src (s.dropWhile isNameChar)).takeWhile src (· != '>') >>= _) = _
  rw [takeWhile_frontOf _ hname]
  show (if (frontOf src ((s.dropWhile isNameChar).dropWhile (· != '>'))).atEnd src = true
    then _ else _) = _
  rw [atEnd_frontOf hend]
  unfold endTag?
  dsimp only
  revert hend hstop
  cases (s.dropWhile isNameChar).dropWhile (· != '>') with
  | nil => exact fun _ _ => rfl
  | cons c rest =>
    intro hend hstop
    obtain rfl : c = '>' := by simpa using hstop
    show ((frontOf src ('>' :: rest)).take src '>'.utf8Size >>= _) = _
    rw [take_char hend]
    rfl

theorem takeRawElement_frontOf (h : s <:+ src) (tagStart : Text) (start : StartTag) :
    (frontOf src s).takeRawElement src start (lineAt src tagStart) =
      located src (rawElement tagStart start s) := by
  have hfind := findText?_lowered start.tag [] s
  rw [takeRawElement, rest_frontOf h, rawElement, ok_bind]
  dsimp only
  revert hfind
  cases hcut : rawContentOnto start.tag [] s with
  | none =>
    intro hnone
    rw [hnone]
    rfl
  | some cut =>
    obtain ⟨content, close⟩ := cut
    rintro ⟨i, hi, hsize⟩
    have happend : content ++ close = s := by simpa using rawContentOnto_append hcut
    have hclose := startsClose_append (rawContentOnto_startsClose hcut)
    have hbehind := suffix_behind h happend
    rw [Text.size_nil, Nat.zero_add] at hsize
    rw [hi, hsize]
    dsimp only
    rw [take_frontOf h happend]
    show ((frontOf src close).take src (Text.size ['<', '/']) >>= _) = _
    rw [take_frontOf hbehind hclose]
    show ((frontOf src (close.drop 2)).takeEndOfTag src _ _ >>= _) = _
    rw [takeEndOfTag_frontOf _ _ (suffix_behind hbehind hclose)]
    cases endTag? (close.drop 2) <;> rfl

theorem takeStartTag_frontOf (h : '<' :: s <:+ src) :
    (frontOf src ('<' :: s)).takeStartTag src = located src (startToken ('<' :: s) s) := by
  have hbehind := (List.suffix_cons '<' s).trans h
  have hname := (List.dropWhile_suffix isNameChar).trans hbehind
  rw [takeStartTag]
  show ((frontOf src ('<' :: s)).take src '<'.utf8Size >>= _) = _
  rw [take_char h]
  show ((frontOf src s).takeWhile src isNameChar >>= _) = _
  rw [takeWhile_frontOf isNameChar hbehind]
  show (tagLoop src (lineAt src ('<' :: s)) [] (frontOf src (s.dropWhile isNameChar)) >>= _) = _
  rw [tagLoop_frontOf _ _ hname, startToken, ← attributes]
  cases hfound : attributes ('<' :: s) (s.dropWhile isNameChar) with
  | error cut => rfl
  | ok found =>
    have hrest : found.rest <:+ src := suffix_behind hname (attributes_append hfound)
    show (if (!found.selfClosing && !isVoid (s.takeWhile isNameChar) &&
      isRawText (s.takeWhile isNameChar)) = true then _ else _) = _
    dsimp only
    split
    · exact takeRawElement_frontOf hrest ('<' :: s) _
    · rfl

theorem takeEndTag_frontOf (h : '<' :: '/' :: s <:+ src) :
    (frontOf src ('<' :: '/' :: s)).takeEndTag src =
      located src (endToken ('<' :: '/' :: s) s) := by
  have hbehind := suffix_behind (a := ['<', '/']) h rfl
  rw [takeEndTag]
  show ((frontOf src ('<' :: '/' :: s)).take src (Text.size ['<', '/']) >>= _) = _
  rw [take_frontOf h rfl]
  show ((frontOf src s).takeEndOfTag src _ _ >>= _) = _
  rw [takeEndOfTag_frontOf _ _ hbehind, endToken]
  cases hend : endTag? s with
  | none => rfl
  | some found =>
    obtain ⟨name, trailing, rest⟩ := found
    have hwhole : ('<' :: '/' :: (name ++ trailing ++ ['>'])) ++ rest = '<' :: '/' :: s := by
      rw [← endTag?_append hend]
      simp
    show (slice src (frontOf src ('<' :: '/' :: s)).offset (frontOf src rest).offset >>= _) = _
    rw [slice_frontOf h hwhole]
    rfl

theorem takePlain_frontOf {c : Char} {r : Text} (h : c :: r <:+ src) :
    (frontOf src (c :: r)).takePlain src =
      .ok (.text (c :: r.takeWhile isPlain), frontOf src (r.dropWhile isPlain)) := by
  have hbehind : sliceFrom (c :: r) c.utf8Size = .ok r := by
    have hslice := sliceFrom_size [c] r
    simpa using hslice
  have hlen : ((r.findChar? fun c => !isPlain c).map (· + c.utf8Size)).getD (Text.size (c :: r)) =
      Text.size (c :: r.takeWhile isPlain) := by
    rw [Text.size_cons, Text.size_cons, ← Text.findChar?_not isPlain r]
    cases r.findChar? fun c => !isPlain c <;> simp [Nat.add_comm]
  have hwhole : (c :: r.takeWhile isPlain) ++ r.dropWhile isPlain = c :: r := by
    rw [List.cons_append, List.takeWhile_append_dropWhile]
  rw [takePlain, peek_frontOf h]
  show ((frontOf src (c :: r)).rest src >>= _) = _
  rw [rest_frontOf h]
  show (sliceFrom (c :: r) c.utf8Size >>= _) = _
  rw [hbehind]
  show ((frontOf src (c :: r)).take src
    (((r.findChar? fun c => !isPlain c).map (· + c.utf8Size)).getD (Text.size (c :: r))) >>= _) = _
  rw [hlen, take_frontOf h hwhole]
  rfl

/-! ## Tokens are read alike -/

/-- Whether a text begins with an opener and a letter behind it. -/
def isOpened (opener s : Text) : Bool :=
  opener.isPrefixOf s && (s.drop opener.length).head?.any Char.isAlpha

theorem opensName_eq {opener : Text} {len : Nat} (hlen : opener.size = len) (s : Text) :
    opensName opener len s = .ok (isOpened opener s) := by
  rw [opensName, isOpened]
  cases hopener : opener.isPrefixOf s with
  | false => rfl
  | true =>
    obtain ⟨r, rfl⟩ := List.isPrefixOf_iff_prefix.mp hopener
    rw [if_pos rfl, ← hlen, sliceFrom_size, List.drop_left]
    rfl

theorem isOpened_append (opener r : Text) :
    isOpened opener (opener ++ r) = r.head?.any Char.isAlpha := by
  rw [isOpened, List.drop_left, List.isPrefixOf_iff_prefix.mpr (List.prefix_append opener r),
    Bool.true_and]

theorem exists_of_isOpened {opener s : Text} (h : isOpened opener s = true) :
    ∃ c r, s = opener ++ c :: r ∧ c.isAlpha = true := by
  obtain ⟨hopener, hletter⟩ := (Bool.and_eq_true _ _).mp h
  obtain ⟨r, rfl⟩ := List.isPrefixOf_iff_prefix.mp hopener
  rw [List.drop_left] at hletter
  cases r with
  | nil => cases hletter
  | cons c r => exact ⟨c, r, rfl, hletter⟩

theorem tagFront_eq (c : Char) (r : Text) : tagFront (c :: r) =
    if ['<', '!', '-', '-'].isPrefixOf (c :: r) then .verbatim ⟨0, ['-', '-', '>'], .comment⟩
    else if isOpened ['<', '/'] (c :: r) then .endTag
    else if ['<', '!'].isPrefixOf (c :: r) || ['<', '?'].isPrefixOf (c :: r) then
      .verbatim ⟨0, ['>'], .declaration⟩
    else if isOpened ['<'] (c :: r) then .startTag
    else .plain := by
  split
  · rename_i hcomment
    obtain ⟨r', hr'⟩ := List.isPrefixOf_iff_prefix.mp hcomment
    cases hr'
    rfl
  rename_i hcomment
  split
  · rename_i hcloses
    obtain ⟨d, r', hr', hd⟩ := exists_of_isOpened hcloses
    cases hr'
    exact tagFront_slash_alpha hd
  rename_i hcloses
  split
  · rename_i hdeclares
    rcases (Bool.or_eq_true _ _).mp hdeclares with hbang | hquestion
    · obtain ⟨r', hr'⟩ := List.isPrefixOf_iff_prefix.mp hbang
      cases hr'
      refine tagFront_declaration ?_
      rintro ⟨r'', rfl⟩
      exact hcomment rfl
    · obtain ⟨r', hr'⟩ := List.isPrefixOf_iff_prefix.mp hquestion
      cases hr'
      rfl
  -- a comment has been tried already, so `<!` is a declaration here
  rename_i hdeclares
  split
  · rename_i hopens
    obtain ⟨d, r', hr', hd⟩ := exists_of_isOpened hopens
    cases hr'
    exact tagFront_alpha hd
  rename_i hopens
  -- each way that the front is not plain has its test above, which has failed
  refine tagFront_eq_plain_iff.mpr ?_
  rintro rfl
  refine ⟨?bang, ?question, ?letter, ?slash⟩
  case bang =>
    intro hhead
    obtain ⟨r', rfl⟩ := List.head?_eq_some_iff.mp hhead
    exact hdeclares rfl
  case question =>
    intro hhead
    obtain ⟨r', rfl⟩ := List.head?_eq_some_iff.mp hhead
    exact hdeclares rfl
  case letter => exact Bool.eq_false_iff.mpr fun h => hopens ((isOpened_append ['<'] r).trans h)
  case slash =>
    intro hhead
    obtain ⟨r', rfl⟩ := List.head?_eq_some_iff.mp hhead
    exact Bool.eq_false_iff.mpr fun h => hcloses ((isOpened_append ['<', '/'] r').trans h)

theorem takeThrough_verbatim {v : Verbatim} (hskip : v.skip = 0) (h : s <:+ src) :
    (do
      let (text, q) ← (frontOf src s).takeThrough src v.stop v.construct (frontOf src s).line
      return (Token.text text, q)) =
      located src ((v.take s).map fun (text, rest) => (.text text, rest)) := by
  rw [takeThrough_frontOf _ _ _ h, Verbatim.take, hskip, List.drop_zero]
  cases Text.splitAfter v.stop s <;> rfl

theorem takeToken_frontOf {c : Char} {r : Text} (h : c :: r <:+ src) :
    (frontOf src (c :: r)).takeToken src = located src (step c r) := by
  rw [takeToken, takeTwig_frontOf h]
  unfold step front
  cases htwig : twig? (c :: r) with
  | some v =>
    dsimp only
    cases v.take (c :: r) <;> rfl
  | none =>
    show ((frontOf src (c :: r)).rest src >>= _) = _
    rw [rest_frontOf h]
    show (if ['<', '!', '-', '-'].isPrefixOf (c :: r) = true then _ else _) = _
    dsimp only
    rw [tagFront_eq]
    split
    · exact takeThrough_verbatim (v := ⟨0, ['-', '-', '>'], .comment⟩) rfl h
    rw [opensName_eq (show Text.size ['<', '/'] = 2 from rfl)]
    show (if isOpened ['<', '/'] (c :: r) = true then _ else _) = _
    split
    · rename_i hcloses
      obtain ⟨d, r', hr', -⟩ := exists_of_isOpened hcloses
      cases hr'
      exact takeEndTag_frontOf h
    split
    · exact takeThrough_verbatim (v := ⟨0, ['>'], .declaration⟩) rfl h
    rw [opensName_eq (show Text.size ['<'] = 1 from rfl)]
    show (if isOpened ['<'] (c :: r) = true then _ else _) = _
    split
    · rename_i hopens
      obtain ⟨d, r', hr', -⟩ := exists_of_isOpened hopens
      cases hr'
      exact takeStartTag_frontOf h
    · exact takePlain_frontOf h

/-! ## Sources are read alike -/

theorem takeTokens_frontOf (seen : List Token) (h : s <:+ src) :
    takeTokens src seen (frontOf src s) =
      match tokensOnto seen s with
      | .error cut => .error (report src cut)
      | .ok ts => .ok ts := by
  fun_induction tokensOnto seen s with
  | case1 seen =>
    rw [takeTokens, atEnd_frontOf h]
    rfl
  | case2 seen c r cut hstep =>
    rw [takeTokens, atEnd_frontOf h, takeToken_frontOf h, hstep]
    rfl
  | case3 seen c r t rest hstep ih =>
    have happend := step_append hstep
    have hmoves := movesTo_frontOf h happend (step_ne_nil hstep)
    rw [← ih (suffix_behind h happend), takeTokens, atEnd_frontOf h, takeToken_frontOf h, hstep]
    exact dif_pos hmoves

/-- Reading by positions comes to the tree, or to the construct that the source is cut inside of,
that reading comes to: no slice is taken that is not inside of the source or that cuts a
character, and no loop is stuck. -/
theorem scan_eq_parse (source : String) :
    scan source = (Document.parse source).mapError .unterminated ∧
      scan source ≠ .error .outside ∧ scan source ≠ .error .stuck := by
  have hstart : (⟨0, 1⟩ : Position) = frontOf source.toList source.toList := by
    simp [frontOf, lineAt]
  have hscan : scan source = (Document.parse source).mapError .unterminated := by
    rw [scan, hstart, takeTokens_frontOf [] List.suffix_rfl, Document.parse, Document.ofText, tokens]
    cases tokensOnto [] source.toList <;> rfl
  refine ⟨hscan, ?_, ?_⟩
  all_goals
    rw [hscan]
    exact mapError_ne_error fun e heq => Halt.noConfusion heq

end Markup

end ExtensionAudit
