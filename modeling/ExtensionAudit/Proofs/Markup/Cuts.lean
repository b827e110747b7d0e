import ExtensionAudit.Proofs.Markup.Rereading
/-
  Where a source is cut. A source that cannot be read ends inside a construct: a
  verbatim one or an end tag behind tokens that were read, a start tag or a raw text
  element whose end is missing, or, inside a start tag, a Twig construct or a quoted
  text behind the pieces that were read. The report names the construct and a line.
  It is the line on which the construct begins, except for a quoted text, which is
  reported on the line of its start tag.

  Main statements: `Document.line_of_parse_error` and
  `Document.line_of_parse_error_below`, a value reported above the line on which it
  begins.
-/

namespace ExtensionAudit

namespace Text

theorem splitAfterOnto_eq_none_iff {stop s : Text} (seen : Text) :
    splitAfterOnto stop seen s = none ↔ ¬stop <:+: s := by
  induction s generalizing seen with
  | nil => simp [splitAfterOnto, strip?_eq_none_iff]
  | cons c s ih =>
    rw [List.infix_cons_iff, not_or, ← strip?_eq_none_iff, splitAfterOnto]
    cases strip? stop (c :: s) with
    | none => simp [ih]
    | some r => simp

end Text

namespace Markup

/-! ## What has been read in front of a construct -/

/-- A part of a start tag that goes up to where a piece can begin: the name, the pieces that have
been read, each of which ends in front of what follows it, and blanks. -/
def EndsAtPiece (inside rest : Text) : Prop :=
  ∃ tag attributes blanks,
    inside = '<' :: (tag ++ (attributes.flatMap Attribute.render ++ blanks)) ∧
    IsTagName tag ∧ (∀ a ∈ attributes, a.Formed) ∧ AllBlank blanks ∧
    Text.endsRun isNameChar (attributes.flatMap Attribute.render ++ (blanks ++ rest)) = true ∧
    (blanks ++ rest = [] ∨ Attribute.apart attributes (blanks ++ rest) = true)

/-- A part of a start tag that goes up to where the value of an attribute begins. -/
def EndsAtValue (inside rest : Text) : Prop :=
  ∃ front name before behind, inside = front ++ (name ++ (before ++ '=' :: behind)) ∧
    EndsAtPiece front (name ++ (before ++ '=' :: (behind ++ rest))) ∧
    IsAttributeName name ∧ AllBlank before ∧ AllBlank behind

/-- A part of a start tag that goes up to where a quoted text can begin. -/
def EndsAtQuote (inside rest : Text) : Prop := EndsAtPiece inside rest ∨ EndsAtValue inside rest

def PassesOver (stop : Char → Bool) (part rest : Text) : Prop :=
  ∀ seen, valueOnto stop seen (part ++ rest) = valueOnto stop (part.reverse ++ seen) rest

/-- A part of a start tag that goes up to where a Twig construct can begin: where a piece or a value
can, or inside a quoted text or an unquoted value. -/
inductive EndsAtTwig (rest : Text) : Text → Prop where
  | outside {inside : Text} : EndsAtQuote inside rest → EndsAtTwig rest inside
  | quoted {front part : Text} {mark : Char} : EndsAtQuote front (mark :: (part ++ rest)) →
      mark = '"' ∨ mark = '\'' → PassesOver (· == mark) part rest →
      EndsAtTwig rest (front ++ mark :: part)
  | unquoted {front part : Text} : EndsAtValue front (part ++ rest) →
      (part ++ rest).head? ≠ some '"' → (part ++ rest).head? ≠ some '\'' →
      PassesOver isValueStop part rest → EndsAtTwig rest (front ++ part)

/-- A construct begins with the rest of a source and does not end. Inside a start tag, `inside` is
what has been read of the tag; elsewhere it is empty. -/
inductive Construct.Unfinished : Construct → (inside rest : Text) → Prop where
  | verbatim {s : Text} {v : Verbatim} : front s = .verbatim v → ¬v.stop <:+: s.drop v.skip →
      Unfinished v.construct [] s
  | twig {inside s : Text} {v : Verbatim} : EndsAtTwig s inside → twig? s = some v →
      ¬v.stop <:+: s.drop v.skip → Unfinished v.construct inside s
  | quoted {inside s : Text} {mark : Char} : EndsAtQuote inside (mark :: s) →
      mark = '"' ∨ mark = '\'' → IsValue (· == mark) s →
      Unfinished .attributeValue inside (mark :: s)
  | startTag {s : Text} : EndsAtPiece s [] ∨ EndsAtValue s [] → Unfinished .startTag [] s
  | rawTextElement {start : StartTag} {s : Text} : start.Formed false → start.keptApart = true →
      isVoid start.tag = false → isRawText start.tag = true →
      (∀ close, close <:+ s → startsClose start.tag close = true → '>' ∉ close) →
      Unfinished .rawTextElement [] (start.render ++ s)
  | endTag {c : Char} {s : Text} : c.isAlpha = true → '>' ∉ s →
      Unfinished .endTag [] ('<' :: '/' :: c :: s)

/-- A cut is made in the text, in a construct that does not end there. It is reported where the
construct begins; a quoted text where the start tag begins. -/
def Cut.IsIn (cut : Cut) (s : Text) : Prop :=
  ∃ inside rest, s = inside ++ rest ∧ cut.construct.Unfinished inside rest ∧
    cut.rest = if cut.construct = .attributeValue then s else rest

/-! ## Verbatim constructs and values -/

theorem Verbatim.take_eq_error_iff {v : Verbatim} {s : Text} {cut : Cut} :
    v.take s = .error cut ↔ ¬v.stop <:+: s.drop v.skip ∧ cut = ⟨v.construct, s⟩ := by
  unfold Verbatim.take Text.splitAfter
  rw [← Text.splitAfterOnto_eq_none_iff []]
  split
  · rename_i hs
    simp [hs]
  · rename_i hs
    simp [hs, eq_comm]

theorem twig?_construct {s : Text} {v : Verbatim} (h : twig? s = some v) :
    v.construct ≠ .attributeValue := by
  unfold twig? at h
  split at h <;> cases h <;> simp

theorem front_construct {s : Text} {v : Verbatim} (h : front s = .verbatim v) :
    v.construct ≠ .attributeValue := by
  unfold front at h
  split at h
  · rename_i ht
    cases h
    exact twig?_construct ht
  · rcases exists_of_tagFront_verbatim h with ⟨_, -, rfl⟩ | ⟨_, -, -, rfl⟩ | ⟨_, -, rfl⟩ <;> simp

theorem valueOnto_error {stop : Char → Bool} {seen s : Text} {cut : Cut}
    (h : valueOnto stop seen s = .error cut) :
    ∃ part rest v, s = part ++ rest ∧ PassesOver stop part rest ∧ twig? rest = some v ∧
      v.take rest = .error cut := by
  fun_induction valueOnto stop seen s with
  | case1 => cases h
  | case2 seen c r v ht cut' hv =>
    cases h
    exact ⟨[], c :: r, v, rfl, fun _ => rfl, ht, hv⟩
  | case3 seen c r v ht text r' hv ih =>
    obtain ⟨part, rest, w, rfl, hpass, hw, htake⟩ := ih h
    refine ⟨text ++ part, rest, w, ?_, fun seen' => ?_, hw, htake⟩
    · rw [List.append_assoc, Verbatim.take_append hv]
    · rw [List.append_assoc, Verbatim.take_append hv, valueOnto_twig ht hv, hpass]
      simp
  | case4 => cases h
  | case5 seen c r ht hc ih =>
    obtain ⟨part, rest, w, rfl, hpass, hw, htake⟩ := ih h
    refine ⟨c :: part, rest, w, rfl, fun seen' => ?_, hw, htake⟩
    rw [List.cons_append, valueOnto_char ht (by simpa using hc), hpass]
    simp

theorem quoted_error {mark : Char} {u cut : Cut} {s : Text} (h : quoted mark u s = .error cut) :
    (IsValue (· == mark) s ∧ cut = u) ∨
      ∃ part rest v, s = part ++ rest ∧ PassesOver (· == mark) part rest ∧
        twig? rest = some v ∧ v.take rest = .error cut := by
  unfold quoted at h
  split at h
  · rename_i hv
    cases h
    exact .inr (valueOnto_error hv)
  · rename_i inner hv
    cases h
    have hs : inner = s := by simpa using value_append hv
    rw [hs] at hv
    exact .inl ⟨hv, rfl⟩
  · cases h

/-! ## Pieces -/

section Pieces

variable {tagStart inside s : Text} {cut : Cut}

theorem Cut.isIn_twig {rest : Text} {v : Verbatim} (hinside : EndsAtTwig rest inside)
    (ht : twig? rest = some v) (hv : v.take rest = .error cut) : cut.IsIn (inside ++ rest) := by
  obtain ⟨hstop, rfl⟩ := Verbatim.take_eq_error_iff.mp hv
  exact ⟨inside, rest, rfl, .twig hinside ht hstop, by rw [if_neg (twig?_construct ht)]⟩

theorem quoted_isIn {mark : Char} (hmark : mark = '"' ∨ mark = '\'')
    (hinside : EndsAtQuote inside (mark :: s)) (htag : tagStart = inside ++ mark :: s)
    (h : quoted mark ⟨.attributeValue, tagStart⟩ s = .error cut) : cut.IsIn tagStart := by
  rcases quoted_error h with ⟨hvalue, rfl⟩ | ⟨part, rest, v, rfl, hpass, ht, hv⟩
  · exact ⟨inside, mark :: s, htag, .quoted hinside hmark hvalue, rfl⟩
  · have hcut := Cut.isIn_twig (.quoted hinside hmark hpass) ht hv
    rwa [List.append_assoc, List.cons_append, ← htag] at hcut

theorem attributeValue_isIn (hinside : EndsAtValue inside s) (htag : tagStart = inside ++ s)
    (h : attributeValue tagStart s = .error cut) : cut.IsIn tagStart := by
  unfold attributeValue at h
  split at h
  · cases h
    rw [List.append_nil] at htag
    exact ⟨[], tagStart, rfl, .startTag (.inr (htag ▸ hinside)), rfl⟩
  · exact quoted_isIn (.inl rfl) (.inr hinside) htag (map_eq_error_iff.mp h)
  · exact quoted_isIn (.inr rfl) (.inr hinside) htag (map_eq_error_iff.mp h)
  · rename_i hdouble hsingle
    obtain ⟨part, rest, v, rfl, hpass, ht, hv⟩ := valueOnto_error (map_eq_error_iff.mp h)
    have hcut := Cut.isIn_twig (.unquoted hinside
      (fun hd => (List.head?_eq_some_iff.mp hd).elim hdouble)
      (fun hd => (List.head?_eq_some_iff.mp hd).elim hsingle) hpass) ht hv
    rwa [List.append_assoc, ← htag] at hcut

theorem namedAttribute_isIn {leading : Text} (ht : twig? s = none) (hopen : opensPiece s = true)
    (hdouble : s.head? ≠ some '"') (hsingle : s.head? ≠ some '\'')
    (hinside : EndsAtPiece inside s) (htag : tagStart = inside ++ s)
    (h : namedAttribute tagStart leading s = .error cut) : cut.IsIn tagStart := by
  unfold namedAttribute at h
  rcases hname : attributeName s with ⟨name, next⟩
  obtain ⟨hform, -⟩ := attributeName_of_opensPiece ht hopen hdouble hsingle hname
  have hsplit := attributeName_append s
  rw [hname] at h hsplit
  simp only at h hsplit
  split at h
  · rename_i r hr
    have hblanks := List.takeWhile_append_dropWhile (p := isBlank) (l := next)
    have hbehind := List.takeWhile_append_dropWhile (p := isBlank) (l := r)
    -- the value begins behind the separator
    have hs : s = name ++ (next.takeWhile isBlank ++ '=' :: (r.takeWhile isBlank ++
        r.dropWhile isBlank)) := by
      rw [hbehind, ← hr, hblanks, hsplit]
    have hvalue : EndsAtValue
        (inside ++ (name ++ (next.takeWhile isBlank ++ '=' :: r.takeWhile isBlank)))
        (r.dropWhile isBlank) :=
      ⟨inside, name, _, _, rfl, hs ▸ hinside, hform, fun _ => Text.mem_takeWhile,
        fun _ => Text.mem_takeWhile⟩
    refine attributeValue_isIn hvalue ?_ (map_eq_error_iff.mp h)
    have hwhole := congrArg (inside ++ ·) hs
    simpa only [htag, List.append_assoc, List.cons_append] using hwhole
  · cases h

theorem piece_isIn {leading : Text} (hopen : opensPiece s = true)
    (hinside : EndsAtPiece inside s) (htag : tagStart = inside ++ s)
    (h : piece tagStart leading s = .error cut) : cut.IsIn tagStart := by
  unfold piece at h
  split at h
  · rename_i v ht
    rw [htag]
    exact Cut.isIn_twig (.outside (.inl hinside)) ht (map_eq_error_iff.mp h)
  · rename_i ht
    split at h
    · exact quoted_isIn (.inl rfl) (.inl hinside) htag (map_eq_error_iff.mp h)
    · exact quoted_isIn (.inr rfl) (.inl hinside) htag (map_eq_error_iff.mp h)
    · rename_i hdouble hsingle
      exact namedAttribute_isIn ht hopen
        (fun hd => (List.head?_eq_some_iff.mp hd).elim hdouble)
        (fun hd => (List.head?_eq_some_iff.mp hd).elim hsingle) hinside htag h

/-- The pieces of a start tag are cut with the source, or in the piece behind those that have been
read. -/
theorem attributesOnto_error {seen : List Attribute}
    (h : attributesOnto tagStart seen s = .error cut) :
    ∃ as blanks r, s = as.flatMap Attribute.render ++ (blanks ++ r) ∧
      (∀ a ∈ as, a.Formed) ∧ AllBlank blanks ∧
      (blanks ++ r = [] ∨ Attribute.apart as (blanks ++ r) = true) ∧
      ((r = [] ∧ cut = ⟨.startTag, tagStart⟩) ∨
        (opensPiece r = true ∧ piece tagStart blanks r = .error cut)) := by
  fun_induction attributesOnto tagStart seen s with
  | case1 seen s hs =>
    cases h
    have hsplit := List.takeWhile_append_dropWhile (p := isBlank) (l := s)
    rw [hs] at hsplit
    exact ⟨[], s.takeWhile isBlank, [], hsplit.symm, by simp, fun _ => Text.mem_takeWhile,
      .inr rfl, .inl ⟨rfl, rfl⟩⟩
  | case2 => cases h
  | case3 => cases h
  | case4 seen s c r hgt hslash hs cut' ha =>
    cases h
    have hsplit := List.takeWhile_append_dropWhile (p := isBlank) (l := s)
    rw [hs] at hsplit
    exact ⟨[], s.takeWhile isBlank, c :: r, hsplit.symm, by simp, fun _ => Text.mem_takeWhile,
      .inr rfl, .inr ⟨opensPiece_dropWhile hs hgt hslash, ha⟩⟩
  | case5 seen s c r hgt hslash hs a rest ha ih =>
    obtain ⟨as, blanks, r', rfl, hforms, hblanks, hapart, hcut⟩ := ih h
    obtain ⟨hform, hends⟩ :=
      piece_sound (fun _ => Text.mem_takeWhile) (opensPiece_dropWhile hs hgt hslash) ha
    obtain ⟨hleading, hbody⟩ := piece_append ha
    refine ⟨a :: as, blanks, r', ?_, List.forall_mem_cons.mpr ⟨hform, hforms⟩, hblanks, ?_, hcut⟩
    · have hsplit := List.takeWhile_append_dropWhile (p := isBlank) (l := s)
      rw [hs, ← hbody, ← hleading] at hsplit
      rw [← hsplit]
      simp [Attribute.render]
    · by_cases hnil : blanks ++ r' = []
      · exact .inl hnil
      · refine .inr ?_
        rw [Attribute.apart, hapart.resolve_left hnil, Bool.and_true]
        exact hends fun h => hnil (List.append_eq_nil_iff.mp h).2

end Pieces

/-! ## Tags -/

theorem endTag?_eq_none {s : Text} (h : endTag? s = none) : '>' ∉ s := by
  unfold endTag? at h
  simp only at h
  split at h
  · rename_i hdrop
    have htail := List.takeWhile_append_dropWhile (p := (· != '>')) (l := s.dropWhile isNameChar)
    rw [hdrop, List.append_nil] at htail
    rw [← List.takeWhile_append_dropWhile (p := isNameChar) (l := s), List.mem_append, not_or]
    refine ⟨fun hgt => absurd (Text.mem_takeWhile hgt) (by decide), fun hgt => ?_⟩
    rw [← htail] at hgt
    simpa using Text.mem_takeWhile hgt
  · cases h

theorem rawContentOnto_eq_none {tag seen s : Text} (h : rawContentOnto tag seen s = none) :
    ∀ close, close <:+ s → startsClose tag close = false := by
  induction s generalizing seen with
  | nil =>
    intro close hclose
    rw [List.suffix_nil.mp hclose]
    rfl
  | cons c r ih =>
    simp only [rawContentOnto] at h
    split at h
    · cases h
    · rename_i hc
      intro close hclose
      rcases List.suffix_cons_iff.mp hclose with rfl | hclose
      · simpa using hc
      · exact ih h close hclose

theorem rawElement_error {tagStart s : Text} {start : StartTag} {cut : Cut}
    (h : rawElement tagStart start s = .error cut) :
    cut = ⟨.rawTextElement, tagStart⟩ ∧
      ∀ close, close <:+ s → startsClose start.tag close = true → '>' ∉ close := by
  unfold rawElement at h
  split at h
  · rename_i hnone
    cases h
    refine ⟨rfl, fun close hsuffix hclose => ?_⟩
    rw [rawContentOnto_eq_none hnone close hsuffix] at hclose
    cases hclose
  · rename_i content close hcontent
    split at h
    · rename_i hend
      cases h
      obtain ⟨_, rfl, rfl, hclose, hfirst⟩ := rawContentOnto_eq_some_iff.mp hcontent
      have hgt : '>' ∉ close := by
        rw [← startsClose_append hclose]
        simpa using endTag?_eq_none hend
      refine ⟨rfl, fun close' hsuffix hclose' => ?_⟩
      -- no end tag begins in front of the one that was found
      rcases List.suffix_or_suffix_of_suffix hsuffix (List.suffix_append _ close) with
        hle | ⟨v, rfl⟩
      · exact fun hmem => hgt (hle.subset hmem)
      · have hv := ((List.suffix_append_inj_of_length_eq rfl).mp hsuffix).1
        by_cases hnil : v = []
        · rwa [hnil]
        · rw [hfirst v hv hnil] at hclose'
          cases hclose'
    · cases h

theorem endTag_isIn {c : Char} {r : Text} {cut : Cut} (hc : c.isAlpha = true)
    (h : endToken ('<' :: '/' :: c :: r) (c :: r) = .error cut) :
    cut.IsIn ('<' :: '/' :: c :: r) := by
  unfold endToken at h
  split at h
  · rename_i hend
    cases h
    have hgt := endTag?_eq_none hend
    exact ⟨[], _, rfl, .endTag hc fun hmem => hgt (List.mem_cons_of_mem c hmem), rfl⟩
  · cases h

theorem startTag_isIn {r : Text} {cut : Cut} (hr : r.head?.any Char.isAlpha = true)
    (h : startToken ('<' :: r) r = .error cut) : cut.IsIn ('<' :: r) := by
  unfold startToken at h
  split at h
  · rename_i hattributes
    cases h
    obtain ⟨as, blanks, s, hs, hforms, hblanks, hapart, hcut⟩ := attributesOnto_error hattributes
    have hrun := Text.endsRun_dropWhile isNameChar r
    rw [hs] at hrun
    have hpiece : EndsAtPiece
        ('<' :: (r.takeWhile isNameChar ++ (as.flatMap Attribute.render ++ blanks))) s :=
      ⟨_, as, blanks, rfl, isTagName_takeWhile hr, hforms, hblanks, hrun, hapart⟩
    have hwhole : '<' :: r =
        '<' :: (r.takeWhile isNameChar ++ (as.flatMap Attribute.render ++ blanks)) ++ s := by
      rw [List.cons_append, List.append_assoc, List.append_assoc, ← hs,
        List.takeWhile_append_dropWhile]
    rcases hcut with ⟨rfl, rfl⟩ | ⟨hopen, hcut⟩
    · rw [List.append_nil] at hwhole
      exact ⟨[], '<' :: r, rfl, .startTag (.inl (hwhole ▸ hpiece)), rfl⟩
    · exact piece_isIn hopen hpiece hwhole hcut
  · rename_i found hfound
    obtain ⟨hform, hapart, hbody⟩ := attributes_sound hr hfound
    simp only at h
    split at h
    · rename_i hraw
      simp only [Bool.and_eq_true, Bool.not_eq_true'] at hraw
      obtain ⟨⟨hself, hvoid⟩, hraw⟩ := hraw
      rw [hself] at hform
      obtain ⟨rfl, hclose⟩ := rawElement_error h
      have hunfinished := Construct.Unfinished.rawTextElement hform hapart hvoid hraw hclose
      rw [StartTag.render_eq, List.cons_append, ← hbody] at hunfinished
      exact ⟨[], '<' :: r, rfl, hunfinished, rfl⟩
    · cases h

/-! ## Sources -/

/-- A step is cut in the construct that the text begins with, or in one of a start tag. -/
theorem step_isIn {c : Char} {r : Text} {cut : Cut} (h : step c r = .error cut) :
    cut.IsIn (c :: r) := by
  unfold step at h
  split at h
  · rename_i v hfront
    obtain ⟨hstop, rfl⟩ := Verbatim.take_eq_error_iff.mp (map_eq_error_iff.mp h)
    exact ⟨[], c :: r, rfl, .verbatim hfront hstop, by rw [if_neg (front_construct hfront)]⟩
  · rename_i hfront
    rw [front_eq_tagFront (by simp [hfront])] at hfront
    obtain rfl := tagFront_startTag hfront
    obtain ⟨d, r, rfl, hd⟩ := exists_of_tagFront_startTag hfront
    exact startTag_isIn (by simpa using hd) h
  · rename_i hfront
    rw [front_eq_tagFront (by simp [hfront])] at hfront
    obtain ⟨rfl, -⟩ := tagFront_endTag hfront
    obtain ⟨d, r, rfl, hd⟩ := exists_of_tagFront_endTag hfront
    exact endTag_isIn hd h
  · cases h

theorem tokensOnto_error {seen : List Token} {s : Text} {cut : Cut}
    (h : tokensOnto seen s = .error cut) :
    ∃ ts r, s = ts.flatMap Token.render ++ r ∧ ReadsUpTo r ts ∧ cut.IsIn r := by
  fun_induction tokensOnto seen s with
  | case1 => cases h
  | case2 seen c r cut' hs =>
    cases h
    exact ⟨[], c :: r, rfl, trivial, step_isIn hs⟩
  | case3 seen c r t rest hs ih =>
    obtain ⟨ts, r', rfl, hts, hcut⟩ := ih h
    obtain ⟨hcr, ht⟩ := step_eq_ok_iff.mp hs
    exact ⟨t :: ts, r', by rw [hcr, List.flatMap_cons, List.append_assoc], ⟨ht, hts⟩, hcut⟩

/-- A source is cut in a construct: behind tokens that have been read and, in a start tag, behind
the part of it that has been read. -/
structure Construct.CutAt (construct : Construct) (s : Text) (before : List Token)
    (inside rest : Text) : Prop where
  source : s = before.flatMap Token.render ++ (inside ++ rest)
  before : ReadsUpTo (inside ++ rest) before
  unfinished : construct.Unfinished inside rest

theorem lineAt_append (before rest : Text) :
    lineAt (before ++ rest) rest = 1 + Text.lineBreaks before := by
  rw [lineAt, Text.lineBreaks_append, Nat.add_sub_cancel]

namespace Document

theorem ofText_eq_error_iff {s : Text} {e : Unterminated} :
    ofText s = .error e ↔
      ∃ cut, tokens s = .error cut ∧ e = ⟨cut.construct, lineAt s cut.rest⟩ := by
  unfold ofText
  cases tokens s with
  | error cut => simp [eq_comm]
  | ok ts => simp

/-- A source that cannot be read is cut in a construct that does not end. The report has the line
on which the construct begins; a quoted text has the line of its start tag, which is another one if
there is a line break between them. -/
theorem line_of_parse_error {source : String} {e : Unterminated} (h : parse source = .error e) :
    ∃ ts inside rest, e.construct.CutAt source.toList ts inside rest ∧
      e.line = 1 + Text.lineBreaks
        (ts.flatMap Token.render ++ if e.construct = .attributeValue then [] else inside) ∧
      (e.line = 1 + Text.lineBreaks (ts.flatMap Token.render ++ inside) ↔
        (e.construct = .attributeValue → '\n' ∉ inside)) := by
  obtain ⟨cut, hcut, rfl⟩ := ofText_eq_error_iff.mp h
  obtain ⟨ts, s, hs, hts, inside, rest, rfl, hunfinished, hrest⟩ := tokensOnto_error hcut
  have hline : lineAt source.toList cut.rest = 1 + Text.lineBreaks
      (ts.flatMap Token.render ++ if cut.construct = .attributeValue then [] else inside) := by
    rw [hrest, hs]
    split
    · rw [lineAt_append, List.append_nil]
    · rw [← List.append_assoc, lineAt_append]
  refine ⟨ts, inside, rest, ⟨hs, hts, hunfinished⟩, hline, ?_⟩
  simp only [hline]
  split
  · rename_i hvalue
    have hbreaks : Text.lineBreaks inside = 0 ↔ '\n' ∉ inside := List.count_eq_zero
    simp only [hvalue, forall_const, List.append_nil, Text.lineBreaks_append, ← hbreaks]
    omega
  · rename_i hvalue
    simp [hvalue]

/-- A Twig construct inside a value is reported on its own line, the third one. -/
theorem line_of_parse_error_twig :
    parse "<p>\n<a\nb='x \x7b\x7b y" = .error ⟨.twigExpression, 3⟩ ∧
    ∃ ts inside rest,
      Construct.twigExpression.CutAt "<p>\n<a\nb='x \x7b\x7b y".toList ts inside rest ∧
        3 = 1 + Text.lineBreaks (ts.flatMap Token.render ++ inside) := by
  have h : parse "<p>\n<a\nb='x \x7b\x7b y" = .error ⟨.twigExpression, 3⟩ := by
    obtain ⟨e, he, hp⟩ := exists_error_of_any (x := parse "<p>\n<a\nb='x \x7b\x7b y")
      (p := (· = ⟨.twigExpression, 3⟩)) (by decide +kernel)
    rw [he, of_decide_eq_true hp]
  obtain ⟨ts, inside, rest, hcut, -, hline⟩ := line_of_parse_error h
  exact ⟨h, ts, inside, rest, hcut, hline.mpr nofun⟩

/-- A quoted value that does not end is reported on the line of its start tag, one above the
quotation mark. -/
theorem line_of_parse_error_below :
    parse "<a\nb=\"x" = .error ⟨.attributeValue, 1⟩ ∧
      Construct.attributeValue.CutAt "<a\nb=\"x".toList [] "<a\nb=".toList "\"x".toList ∧
      1 ≠ 1 + Text.lineBreaks "<a\nb=".toList := by
  have h : parse "<a\nb=\"x" = .error ⟨.attributeValue, 1⟩ := by
    obtain ⟨e, he, hp⟩ := exists_error_of_any (x := parse "<a\nb=\"x")
      (p := (· = ⟨.attributeValue, 1⟩)) (by decide +kernel)
    rw [he, of_decide_eq_true hp]
  refine ⟨h, ⟨by decide, trivial, ?_⟩, by decide⟩
  have hpiece : EndsAtPiece ['<', 'a', '\n'] "b=\"x".toList :=
    ⟨['a'], [], ['\n'], rfl, by decide, by simp, by simp [AllBlank]; decide, by decide, .inr rfl⟩
  have hvalue : EndsAtValue ['<', 'a', '\n', 'b', '='] "\"x".toList :=
    ⟨['<', 'a', '\n'], ['b'], [], [], rfl, hpiece, .inr ⟨by simp, by decide⟩, by simp [AllBlank],
      by simp [AllBlank]⟩
  have hx : IsValue (· == '"') ['x'] := by
    rw [IsValue, value, valueOnto_char (twig?_singleton 'x') (by decide), valueOnto]
    rfl
  exact .quoted (.inr hvalue) (.inl rfl) hx

end Document

end Markup

end ExtensionAudit
