import ExtensionAudit.Proofs.Markup.Positions
/-
  Reading a template by positions. The source is not passed on as what is left of it:
  every slice is taken between byte positions, the end of raw text is looked for in a
  copy in lower case, and a loop goes on only where its turn has moved on inside of the
  source. The scan halts where a slice or a turn is not as it should be. In front of
  what is left it takes what reading takes, which is shown here for values.

  Main statements: `takeQuoted_frontOf`, `takeUnquoted_frontOf` and `takeValue_frontOf`.
-/

namespace ExtensionAudit.Markup

namespace Position

variable (src : Text)

/-! ## Values -/

/-- Goes on through a quoted text and its closing mark. -/
def quotedLoop (mark : Char) (line : Nat) (p : Position) : Except Halt Position :=
  if p.atEnd src then .error (.unterminated ⟨.attributeValue, line⟩)
  else do
    let (twig, q) ← p.takeTwig src
    if twig.isSome then
      if _h : p.MovesTo src q then quotedLoop mark line q else throw .stuck
    else
      let c := (← p.peek src).getD mark
      let (_, q) ← p.take src c.utf8Size
      if c = mark then return q
      else if _h : p.MovesTo src q then quotedLoop mark line q
      else throw .stuck
termination_by src.size - p.offset
decreasing_by
  all_goals
    obtain ⟨hmoves, hinside⟩ := _h
    omega

def takeQuoted (mark : Char) (line : Nat) (p : Position) : Except Halt (Text × Position) := do
  let (_, q) ← p.take src 1
  let q ← quotedLoop src mark line q
  return (← slice src p.offset q.offset, q)

/-- Goes on to the end of a value without quotes. -/
def unquotedLoop (p : Position) : Except Halt Position := do
  match ← p.peek src with
  | none => return p
  | some c =>
    let (twig, q) ← p.takeTwig src
    if twig.isSome then
      if _h : p.MovesTo src q then unquotedLoop q else throw .stuck
    else if isBlank c || c = '>' then return p
    else
      let (_, q) ← p.take src c.utf8Size
      if _h : p.MovesTo src q then unquotedLoop q else throw .stuck
termination_by src.size - p.offset
decreasing_by
  all_goals
    obtain ⟨hmoves, hinside⟩ := _h
    omega

/-- Takes a value without quotes. -/
def takeUnquoted (p : Position) : Except Halt (Text × Position) := do
  let q ← unquotedLoop src p
  return (← slice src p.offset q.offset, q)

/-! ## Start tags -/

/-- Whether an attribute name ends in front of the character at a position of this text. -/
def endsNameAt (s : Text) (i : Nat) (c : Char) : Except Halt Bool := do
  if isBlank c || c = '>' || c = '=' || c = '"' || c = '\'' then return true
  else
    let ends ← if c = '/' then (·.head? == some '>') <$> sliceFrom s (i + 1) else pure false
    if ends then return true
    else return (twig? (← sliceFrom s i)).isSome

def nameEnd (s : Text) : Nat → Text → Except Halt (Option Nat)
  | _, [] => return none
  | i, c :: r => do
    if ← endsNameAt s i c then return some i
    else nameEnd s (i + c.utf8Size) r

/-- The quotation mark at a place, and how it quotes. -/
def quotation? : Option Char → Option (Char × Quote)
  | some '"' => some ('"', .double)
  | some '\'' => some ('\'', .single)
  | _ => none

/-- Takes the value of an attribute, and how it is quoted. -/
def takeValue (line : Nat) (p : Position) : Except Halt ((Text × Quote) × Position) := do
  match quotation? (← p.peek src) with
  | some (mark, quote) =>
    let (whole, q) ← p.takeQuoted src mark line
    return ((← slice whole 1 (whole.size - 1), quote), q)
  | none =>
    let (value, q) ← p.takeUnquoted src
    return ((value, .none), q)

/-- Takes the name of an attribute. A name that ends at once is the character there. -/
def takeName (p : Position) : Except Halt (Text × Position) := do
  let s ← p.rest src
  let found := (← nameEnd s 0 s).getD s.size
  let next ← p.peek src
  p.take src (if found = 0 then next.elim 0 Char.utf8Size else found)

/-- Takes a named attribute. -/
def takeAttribute (leading : Text) (line : Nat) (p : Position) :
    Except Halt (Attribute × Position) := do
  let (name, q) ← p.takeName src
  if (Text.trimStart (← q.rest src)).head? = some '=' then
    let (before, q) ← q.takeWhile src isBlank
    let (equals, q) ← q.take src 1
    let (after, q) ← q.takeWhile src isBlank
    if q.atEnd src then throw (.unterminated ⟨.startTag, line⟩)
    else
      let ((value, quote), q) ← q.takeValue src line
      return (.named ⟨leading, name, before ++ equals ++ after, some value, quote⟩, q)
  else return (.named ⟨leading, name, [], none, .none⟩, q)

/-- Takes one piece of a start tag behind its leading blanks. -/
def takePiece (leading : Text) (line : Nat) (p : Position) : Except Halt (Attribute × Position) := do
  let (twig, q) ← p.takeTwig src
  match twig with
  | some text => return (.verbatim leading text, q)
  | none =>
    match quotation? (← p.peek src) with
    | some (mark, _) =>
      let (text, q) ← p.takeQuoted src mark line
      return (.verbatim leading text, q)
    | none => p.takeAttribute src leading line

/-- Goes on through a start tag: its pieces, the text that ends it, and whether the element closes
itself. -/
def tagLoop (line : Nat) (seen : List Attribute) (p : Position) :
    Except Halt ((List Attribute × Text × Bool) × Position) := do
  let (leading, q) ← p.takeWhile src isBlank
  if q.atEnd src then throw (.unterminated ⟨.startTag, line⟩)
  else
    match ← q.rest src with
    | '>' :: _ =>
      let (_, q) ← q.take src 1
      return ((seen.reverse, leading ++ ['>'], false), q)
    | '/' :: '>' :: _ =>
      let (_, q) ← q.take src 2
      return ((seen.reverse, leading ++ ['/', '>'], true), q)
    | _ =>
      let (a, q) ← q.takePiece src leading line
      if _h : p.MovesTo src q then tagLoop line (a :: seen) q else throw .stuck
termination_by src.size - p.offset
decreasing_by
  obtain ⟨hmoves, hinside⟩ := _h
  omega

/-! ## Tokens -/

/-- Takes what is left of an end tag behind its opener. -/
def takeEndOfTag (construct : Construct) (line : Nat) (p : Position) :
    Except Halt ((Text × Text) × Position) := do
  let (name, q) ← p.takeWhile src isNameChar
  let (trailing, q) ← q.takeWhile src (· != '>')
  if q.atEnd src then throw (.unterminated ⟨construct, line⟩)
  else
    let (_, q) ← q.take src 1
    return ((name, trailing), q)

/-- Takes the content and the end tag of a raw text element. Where the end tag begins is looked for
in a copy of the source in lower case. -/
def takeRawElement (start : StartTag) (line : Nat) (p : Position) :
    Except Halt (Token × Position) := do
  let copy := (← p.rest src).map Char.toLower
  match Text.findText? ('<' :: '/' :: start.tag.map Char.toLower) copy with
  | none => throw (.unterminated ⟨.rawTextElement, line⟩)
  | some i =>
    let (content, q) ← p.take src i
    let (_, q) ← q.take src 2
    let ((name, trailing), q) ← q.takeEndOfTag src .rawTextElement line
    return (.rawElement start content name trailing, q)

/-- Takes a start tag, and the whole element when its content is raw text. -/
def takeStartTag (p : Position) : Except Halt (Token × Position) := do
  let (_, q) ← p.take src 1
  let (tag, q) ← q.takeWhile src isNameChar
  let ((attributes, tail, selfClosing), q) ← tagLoop src p.line [] q
  let start : StartTag := ⟨tag, attributes, tail⟩
  if !selfClosing && !isVoid tag && isRawText tag then q.takeRawElement src start p.line
  else return (.startTag start selfClosing, q)

/-- Takes an end tag. The whole of it is what stays as text where no such element is open. -/
def takeEndTag (p : Position) : Except Halt (Token × Position) := do
  let (_, q) ← p.take src 2
  let ((name, trailing), q) ← q.takeEndOfTag src .endTag p.line
  let _whole ← slice src p.offset q.offset
  return (.endTag name trailing, q)

/-- Takes plain text up to the next character that may begin something else. -/
def takePlain (p : Position) : Except Halt (Token × Position) := do
  let first := (← p.peek src).elim 1 Char.utf8Size
  let s ← p.rest src
  let behind ← sliceFrom s first
  let len := ((behind.findChar? fun c => !isPlain c).map (· + first)).getD s.size
  let (text, q) ← p.take src len
  return (.text text, q)

/-- Whether this text begins with an opener, and with a letter behind so many bytes. -/
def opensName (opener : Text) (len : Nat) (s : Text) : Except Halt Bool :=
  if opener.isPrefixOf s then do return (← sliceFrom s len).head?.any Char.isAlpha
  else return false

def takeToken (p : Position) : Except Halt (Token × Position) := do
  let (twig, q) ← p.takeTwig src
  match twig with
  | some text => return (.text text, q)
  | none =>
    let s ← p.rest src
    if ['<', '!', '-', '-'].isPrefixOf s then
      let (text, q) ← p.takeThrough src ['-', '-', '>'] .comment p.line
      return (.text text, q)
    else
      if ← opensName ['<', '/'] 2 s then p.takeEndTag src
      else if ['<', '!'].isPrefixOf s || ['<', '?'].isPrefixOf s then
        let (text, q) ← p.takeThrough src ['>'] .declaration p.line
        return (.text text, q)
      else if ← opensName ['<'] 1 s then p.takeStartTag src
      else p.takePlain src

/-- Goes on through the source, token by token. -/
def takeTokens (seen : List Token) (p : Position) : Except Halt (List Token) :=
  if p.atEnd src then .ok seen.reverse
  else do
    let (t, q) ← p.takeToken src
    if _h : p.MovesTo src q then takeTokens (t :: seen) q else throw .stuck
termination_by src.size - p.offset
decreasing_by
  obtain ⟨hmoves, hinside⟩ := _h
  omega

end Position

def scan (source : String) : Except Halt Document := do
  return ⟨build (← Position.takeTokens source.toList [] ⟨0, 1⟩)⟩

/-! ## Values are read alike -/

open Position

variable {src s a b : Text} {mark : Char}

theorem movesTo_frontOf (h : s <:+ src) (happend : a ++ b = s) (ha : a ≠ []) :
    (frontOf src s).MovesTo src (frontOf src b) := by
  subst happend
  have hoffset := offset_frontOf h
  have hsize := Text.size_pos ha
  exact ⟨by omega, Nat.sub_le _ _⟩

theorem quotedLoop_frontOf (mark : Char) (line : Nat) (seen : Text) (h : s <:+ src) :
    quotedLoop src mark line (frontOf src s) =
      match valueOnto (· == mark) seen s with
      | .error cut => .error (report src cut)
      | .ok (_, []) => .error (.unterminated ⟨.attributeValue, line⟩)
      | .ok (_, _ :: rest) => .ok (frontOf src rest) := by
  fun_induction valueOnto (· == mark) seen s with
  | case1 seen =>
    rw [quotedLoop, atEnd_frontOf h]
    rfl
  | case2 seen c r v htwig cut htake =>
    rw [quotedLoop, atEnd_frontOf h, takeTwig_frontOf h, htwig]
    simp only [htake]
    rfl
  | case3 seen c r v htwig text rest htake ih =>
    have happend := Verbatim.take_append htake
    have hmoves := movesTo_frontOf h happend (Verbatim.take_ne_nil (twig?_stop htwig) htake)
    rw [← ih (suffix_behind h happend), quotedLoop, atEnd_frontOf h, takeTwig_frontOf h, htwig]
    simp only [htake]
    show (if _h : _ then _ else _) = _
    rw [dif_pos hmoves]
  | case4 seen c r htwig hstop =>
    obtain rfl : c = mark := by simpa using hstop
    rw [quotedLoop, atEnd_frontOf h, takeTwig_frontOf h, htwig]
    show ((frontOf src (c :: r)).peek src >>= _) = _
    rw [peek_frontOf h]
    show ((frontOf src (c :: r)).take src c.utf8Size >>= _) = _
    rw [take_char h]
    show (if c = c then _ else _) = _
    rw [if_pos rfl]
    rfl
  | case5 seen c r htwig hstop ih =>
    have hne : ¬c = mark := by simpa using hstop
    have hmoves := movesTo_frontOf (a := [c]) h rfl (by simp)
    rw [← ih ((List.suffix_cons c r).trans h), quotedLoop, atEnd_frontOf h, takeTwig_frontOf h,
      htwig]
    show ((frontOf src (c :: r)).peek src >>= _) = _
    rw [peek_frontOf h]
    show ((frontOf src (c :: r)).take src c.utf8Size >>= _) = _
    rw [take_char h]
    show (if c = mark then _ else _) = _
    rw [if_neg hne]
    exact dif_pos hmoves

theorem takeQuoted_frontOf (hmark : mark.utf8Size = 1) (h : mark :: s <:+ src) (tagStart : Text) :
    (frontOf src (mark :: s)).takeQuoted src mark (lineAt src tagStart) =
      located src ((quoted mark ⟨.attributeValue, tagStart⟩ s).map fun (inner, rest) =>
        (mark :: inner ++ [mark], rest)) := by
  have htake := take_char h
  rw [hmark] at htake
  rw [takeQuoted, htake]
  show (quotedLoop src mark _ (frontOf src s) >>= _) = _
  rw [quotedLoop_frontOf _ _ [] ((List.suffix_cons mark s).trans h), quoted, value]
  cases hvalue : valueOnto (· == mark) [] s with
  | error cut => rfl
  | ok found =>
    obtain ⟨inner, _ | ⟨c, rest⟩⟩ := found
    · rfl
    · have hwhole : (mark :: inner ++ [mark]) ++ rest = mark :: s := by
        have happend := valueOnto_append hvalue
        have hc : c = mark := by simpa using valueOnto_stop hvalue
        simpa [hc] using happend
      show (slice src (frontOf src (mark :: s)).offset (frontOf src rest).offset >>= _) = _
      rw [slice_frontOf h hwhole]
      rfl

theorem unquotedLoop_frontOf (seen : Text) (h : s <:+ src) :
    unquotedLoop src (frontOf src s) =
      match valueOnto (fun c => isBlank c || c = '>') seen s with
      | .error cut => .error (report src cut)
      | .ok (_, rest) => .ok (frontOf src rest) := by
  fun_induction valueOnto (fun c => isBlank c || c = '>') seen s with
  | case1 seen =>
    rw [unquotedLoop, peek_frontOf h]
    rfl
  | case2 seen c r v htwig cut htake =>
    rw [unquotedLoop, peek_frontOf h]
    show ((frontOf src (c :: r)).takeTwig src >>= _) = _
    rw [takeTwig_frontOf h, htwig]
    simp only [htake]
    rfl
  | case3 seen c r v htwig text rest htake ih =>
    have happend := Verbatim.take_append htake
    -- a construct that is taken whole is not empty
    have hmoves := movesTo_frontOf h happend (Verbatim.take_ne_nil (twig?_stop htwig) htake)
    rw [← ih (suffix_behind h happend), unquotedLoop, peek_frontOf h]
    show ((frontOf src (c :: r)).takeTwig src >>= _) = _
    rw [takeTwig_frontOf h, htwig]
    simp only [htake]
    show (if _h : _ then _ else _) = _
    rw [dif_pos hmoves]
  | case4 seen c r htwig hstop =>
    rw [unquotedLoop, peek_frontOf h]
    show ((frontOf src (c :: r)).takeTwig src >>= _) = _
    rw [takeTwig_frontOf h, htwig]
    show (if (isBlank c || c = '>') = true then _ else _) = _
    rw [if_pos hstop]
    rfl
  | case5 seen c r htwig hstop ih =>
    have hmoves := movesTo_frontOf (a := [c]) h rfl (by simp)
    rw [← ih ((List.suffix_cons c r).trans h), unquotedLoop, peek_frontOf h]
    show ((frontOf src (c :: r)).takeTwig src >>= _) = _
    rw [takeTwig_frontOf h, htwig]
    show (if (isBlank c || c = '>') = true then _ else _) = _
    rw [if_neg hstop]
    show ((frontOf src (c :: r)).take src c.utf8Size >>= _) = _
    rw [take_char h]
    exact dif_pos hmoves

theorem takeUnquoted_frontOf (h : s <:+ src) : (frontOf src s).takeUnquoted src =
    located src (value (fun c => isBlank c || c = '>') s) := by
  rw [takeUnquoted, unquotedLoop_frontOf [] h, value]
  cases hvalue : valueOnto (fun c => isBlank c || c = '>') [] s with
  | error cut => rfl
  | ok found =>
    obtain ⟨text, rest⟩ := found
    show (slice src (frontOf src s).offset (frontOf src rest).offset >>= _) = _
    rw [slice_frontOf h (by simpa using valueOnto_append hvalue)]
    rfl

theorem slice_quoted (hmark : mark.utf8Size = 1) (inner : Text) :
    slice (mark :: inner ++ [mark]) 1 (Text.size (mark :: inner ++ [mark]) - 1) = .ok inner := by
  have hbehind : inner ++ [mark] <:+ mark :: inner ++ [mark] := List.suffix_cons mark _
  have hslice := slice_frontOf hbehind rfl
  have hone : (frontOf (mark :: inner ++ [mark]) (inner ++ [mark])).offset = 1 := by
    simp [frontOf, hmark]
  have hlast : (frontOf (mark :: inner ++ [mark]) [mark]).offset =
      Text.size (mark :: inner ++ [mark]) - 1 := by
    simp [frontOf, hmark]
  rwa [hone, hlast] at hslice

theorem quotation?_eq_none (hdouble : ∀ r, s ≠ '"' :: r) (hsingle : ∀ r, s ≠ '\'' :: r) :
    quotation? s.head? = none := by
  unfold quotation?
  split
  · rename_i hhead
    obtain ⟨r, rfl⟩ := List.head?_eq_some_iff.mp hhead
    exact absurd rfl (hdouble r)
  · rename_i hhead
    obtain ⟨r, rfl⟩ := List.head?_eq_some_iff.mp hhead
    exact absurd rfl (hsingle r)
  · rfl

theorem takeValue_frontOf (h : s <:+ src) (hs : s ≠ []) (tagStart : Text) :
    (frontOf src s).takeValue src (lineAt src tagStart) =
      located src ((attributeValue tagStart s).map fun (v, quote, rest) => ((v, quote), rest)) := by
  have hmarked {mark : Char} {quote : Quote} {r : Text} (hmark : mark.utf8Size = 1)
      (hquotation : quotation? (some mark) = some (mark, quote)) (h : mark :: r <:+ src) :
      (frontOf src (mark :: r)).takeValue src (lineAt src tagStart) =
        located src ((quoted mark ⟨.attributeValue, tagStart⟩ r).map fun (v, rest) =>
          ((v, quote), rest)) := by
    rw [takeValue, peek_frontOf h]
    show (match quotation? (some mark) with | some (mark, quote) => _ | none => _) = _
    rw [hquotation]
    show ((frontOf src (mark :: r)).takeQuoted src mark (lineAt src tagStart) >>= _) = _
    rw [takeQuoted_frontOf hmark h]
    cases quoted mark ⟨.attributeValue, tagStart⟩ r with
    | error cut => rfl
    | ok found =>
      obtain ⟨inner, rest⟩ := found
      show (slice (mark :: inner ++ [mark]) 1 _ >>= _) = _
      rw [slice_quoted hmark]
      rfl
  unfold attributeValue
  split
  · exact absurd rfl hs
  · rw [hmarked rfl rfl h]
    cases quoted '"' ⟨.attributeValue, tagStart⟩ _ <;> rfl
  · rw [hmarked rfl rfl h]
    cases quoted '\'' ⟨.attributeValue, tagStart⟩ _ <;> rfl
  · rename_i hdouble hsingle
    rw [takeValue, peek_frontOf h]
    show (match quotation? s.head? with | some (mark, quote) => _ | none => _) = _
    rw [quotation?_eq_none hdouble hsingle]
    show ((frontOf src s).takeUnquoted src >>= _) = _
    rw [takeUnquoted_frontOf h]
    cases value (fun c => isBlank c || c = '>') s <;> rfl

end ExtensionAudit.Markup
