import ExtensionAudit.Markup.StartTag
import ExtensionAudit.Proofs.Markup.Reading
/-
  The pieces of start tags as a grammar. A piece has a form of its own, and it is
  read up to its end only if what stands behind it cannot go on with it: a name
  goes on with any character that ends no name, and with an `=` behind blanks; an
  unquoted value goes on up to a blank or `>`.

  Main statements: `piece_sound` and `piece_complete`, the reader takes a piece
  exactly when it has that form and ends in front of the rest.
-/

namespace ExtensionAudit.Markup

/-! ## Names -/

theorem endsName_cons (c : Char) (r : Text) :
    endsName (c :: r) = ((c = '/' && r.head? = some '>') || isBlank c || c = '>' || c = '=' ||
      c = '"' || c = '\'' || (twig? (c :: r)).isSome) := by
  unfold endsName
  split
  · rename_i h
    cases h
  · rename_i h
    cases h
    simp
  · rename_i c' r' hno h
    cases h
    have hslash : (c = '/' && r.head? = some '>') = false := by
      cases r with
      | nil => simp
      | cons d r =>
        simp only [List.head?_cons, Option.some.injEq, Bool.and_eq_false_iff,
          decide_eq_false_iff_not]
        refine Classical.not_and_iff_not_or_not.mp fun hcd => ?_
        exact hno r hcd.1 (by rw [hcd.2])
    rw [hslash, Bool.false_or]

theorem endsName_cons_cons (c d : Char) (r r' : Text) :
    endsName (c :: d :: r) = endsName (c :: d :: r') := by
  rw [endsName_cons, endsName_cons, twig?_cons_cons c d r r']
  rfl

theorem endsName_append {s : Text} (hs : s ≠ []) (h : endsName s = true) (r : Text) :
    endsName (s ++ r) = true := by
  match s, hs with
  | [c], _ =>
    rw [endsName_cons, twig?_singleton] at h
    simp only [Option.isSome_none, Bool.or_false, List.head?_nil, reduceCtorEq, decide_false,
      Bool.and_false, Bool.false_or] at h
    rw [List.singleton_append, endsName_cons]
    simp only [Bool.or_eq_true] at h
    rcases h with (((h | h) | h) | h) | h <;> simp [h]
  | c :: d :: s', _ => rw [← h]; exact endsName_cons_cons c d _ _

theorem nameRun_cons (c : Char) (r : Text) :
    nameRun (c :: r) =
      if endsName (c :: r) then ([], c :: r) else (c :: (nameRun r).1, (nameRun r).2) := by
  rw [nameRun]
  rfl

theorem nameRun_cons_eq {c : Char} {n next : Text} :
    nameRun (c :: (n ++ next)) = (c :: n, next) ↔
      endsName (c :: (n ++ next)) = false ∧ nameRun (n ++ next) = (n, next) := by
  rw [nameRun_cons]
  cases endsName (c :: (n ++ next)) <;> simp [Prod.ext_iff]

/-- Whether a text can be an attribute name: a stray `=`, or characters that end no name. -/
def IsAttributeName (name : Text) : Prop :=
  name = ['='] ∨ (name ≠ [] ∧ nameRun name = (name, []))

/-- Whether a name is read up to here and no further. -/
def nameEnds (name next : Text) : Bool :=
  name = ['='] || nameRun (name ++ next) = (name, next)

theorem nameRun_alone {n next : Text} (h : nameRun (n ++ next) = (n, next)) :
    nameRun n = (n, []) := by
  induction n with
  | nil => rfl
  | cons c n ih =>
    rw [List.cons_append, nameRun_cons_eq] at h
    have hn := ih h.2
    have hc : endsName (c :: n) = false := by
      cases hc : endsName (c :: n) with
      | false => rfl
      | true =>
        have := endsName_append (List.cons_ne_nil c n) hc next
        rw [List.cons_append, h.1] at this
        cases this
    have := @nameRun_cons_eq c n []
    rw [List.append_nil] at this
    exact this.mpr ⟨hc, hn⟩

theorem nameRun_separator {n sep : Text} (hn : nameRun n = (n, []))
    (hsep : ∃ c r, sep = c :: r ∧ (isBlank c = true ∨ c = '=')) :
    nameRun (n ++ sep) = (n, sep) := by
  obtain ⟨c, r, rfl, hc⟩ := hsep
  have hc' : endsName (c :: r) = true := by
    rw [endsName_cons]
    rcases hc with hc | rfl <;> simp_all
  -- with the last character of the name, `c` makes neither `/>` nor a Twig opener
  have hne : c ≠ '>' ∧ isTwigSecond c = false := by
    rcases hc with hc | rfl
    · refine ⟨?_, isTwigSecond_eq_false hc (by decide)⟩
      rintro rfl
      exact absurd hc (by decide)
    · exact ⟨by decide, by decide⟩
  induction n with
  | nil => simp [nameRun_cons, hc']
  | cons d n ih =>
    have := @nameRun_cons_eq d n []
    rw [List.append_nil, hn] at this
    obtain ⟨hd, hn'⟩ := this.mp rfl
    rw [List.cons_append, nameRun_cons_eq]
    refine ⟨?_, ih hn'⟩
    cases n with
    | nil =>
      rw [endsName_cons, twig?_singleton] at hd
      rw [List.nil_append, endsName_cons, twig?_cons_of_not_second (by simpa using hne.2)]
      simp_all
    | cons e n' => rw [← hd]; exact endsName_cons_cons d e _ _

theorem attributeName_of_nameEnds {name next : Text} (hname : IsAttributeName name)
    (h : nameEnds name next = true) : attributeName (name ++ next) = (name, next) := by
  by_cases heq : name = ['=']
  · subst heq
    simp [attributeName, nameRun_cons, endsName_cons]
  · have hne : name ≠ [] := (hname.resolve_left heq).1
    have hrun : nameRun (name ++ next) = (name, next) := by simpa [nameEnds, heq] using h
    unfold attributeName
    rw [hrun]
    split
    · simp_all
    · rfl

/-- What an attribute name begins with is no blank, no quotation mark and no end of a tag. -/
theorem head_of_nameEnds {name next : Text} (hname : IsAttributeName name)
    (h : nameEnds name next = true) :
    ∃ c r, name ++ next = c :: r ∧ twig? (c :: r) = none ∧ isBlank c = false ∧ c ≠ '>' ∧
      c ≠ '"' ∧ c ≠ '\'' ∧ ¬(c = '/' ∧ r.head? = some '>') := by
  by_cases heq : name = ['=']
  · subst heq
    exact ⟨'=', next, rfl, twig?_of_ne_brace (by decide), by decide, by decide, by decide,
      by decide, fun hcd => absurd hcd.1 (by decide)⟩
  · have hne : name ≠ [] := (hname.resolve_left heq).1
    have hrun : nameRun (name ++ next) = (name, next) := by simpa [nameEnds, heq] using h
    obtain ⟨c, n, rfl⟩ := List.exists_cons_of_ne_nil hne
    refine ⟨c, n ++ next, rfl, ?_⟩
    have hc := (nameRun_cons_eq.mp hrun).1
    simp only [endsName_cons, Bool.or_eq_false_iff, Bool.and_eq_false_iff,
      decide_eq_false_iff_not, Option.isSome_eq_false_iff, Option.isNone_iff_eq_none] at hc
    obtain ⟨⟨⟨⟨⟨⟨hslash, hblank⟩, hgt⟩, -⟩, hdouble⟩, hsingle⟩, htwig⟩ := hc
    exact ⟨htwig, hblank, hgt, hdouble, hsingle, fun hcd => hslash.elim (· hcd.1) (· hcd.2)⟩

theorem attributeName_sound {c : Char} {r name next : Text} (ht : twig? (c :: r) = none)
    (hblank : isBlank c = false) (hgt : c ≠ '>') (hdouble : c ≠ '"') (hsingle : c ≠ '\'')
    (hslash : ¬(c = '/' ∧ r.head? = some '>')) (h : attributeName (c :: r) = (name, next)) :
    IsAttributeName name ∧ nameEnds name next = true := by
  unfold attributeName at h
  split at h
  · rename_i d r' hrun
    have happend := nameRun_append (c :: r)
    rw [hrun, List.nil_append] at happend
    obtain ⟨rfl, rfl⟩ := List.cons_eq_cons.mp happend
    rw [nameRun_cons] at hrun
    split at hrun
    · -- of what ends a name, only `=` can stand where a name can begin
      rename_i hends
      have hd : d = '=' := by
        have hends' : (d = '/' ∧ r'.head? = some '>') ∨ d = '=' := by
          simpa [endsName_cons, ht, hblank, hgt, hdouble, hsingle] using hends
        exact hends'.resolve_left hslash
      simp only [Prod.mk.injEq] at h
      obtain ⟨rfl, rfl⟩ := h
      subst hd
      exact ⟨.inl rfl, by simp [nameEnds]⟩
    · simp at hrun
  · rename_i hne
    have happend := nameRun_append (c :: r)
    rw [h] at happend
    have hname : name ≠ [] := by
      rintro rfl
      have hnext : next = c :: r := happend
      exact hne c r (by rw [h, hnext])
    have hrun : nameRun (name ++ next) = (name, next) := by rw [happend, h]
    exact ⟨.inr ⟨hname, nameRun_alone hrun⟩, by simp [nameEnds, hrun]⟩

/-! ## The form of a piece -/

def AllBlank (s : Text) : Prop := ∀ c ∈ s, isBlank c = true

def isValueStop (c : Char) : Bool := isBlank c || c = '>'

/-- Whether a text can be a value that is quoted like this. An unquoted value begins with no
quotation mark. -/
def IsWrittenValue : Quote → Text → Prop
  | .none, v => IsValue isValueStop v ∧ v.head? ≠ some '"' ∧ v.head? ≠ some '\''
  | .single, v => IsValue (· == '\'') v
  | .double, v => IsValue (· == '"') v

/-- The form of a piece of a start tag, whatever follows it. -/
inductive Attribute.Formed : Attribute → Prop where
  | twig {leading text : Text} {v : Verbatim} : AllBlank leading → twig? text = some v →
      v.take text = .ok (text, []) → Formed (.verbatim leading text)
  | quoted {leading inner : Text} {mark : Char} : AllBlank leading → mark = '"' ∨ mark = '\'' →
      IsValue (· == mark) inner → Formed (.verbatim leading (mark :: inner ++ [mark]))
  | bare {leading name : Text} : AllBlank leading → IsAttributeName name →
      Formed (.named ⟨leading, name, [], none, .none⟩)
  | valued {leading name before behind value : Text} {quote : Quote} : AllBlank leading →
      IsAttributeName name → AllBlank before → AllBlank behind → IsWrittenValue quote value →
      Formed (.named ⟨leading, name, before ++ '=' :: behind, some value, quote⟩)

/-- Whether a piece is read up to here and no further, when `next` stands behind it. -/
def Attribute.endsBefore (next : Text) : Attribute → Bool
  | .verbatim _ _ => true
  | .named a =>
    match a.value with
    | none => nameEnds a.name next && (next.dropWhile isBlank).head? ≠ some '='
    | some value =>
      a.quote ≠ .none || next.head? = some '>' || (!value.isEmpty && next.head?.any isBlank)

/-- Whether a piece of a start tag can begin here: there is no blank and no end of the tag. -/
def opensPiece : Text → Bool
  | [] => false
  | c :: r => !isBlank c && c ≠ '>' && !(c = '/' && r.head? = some '>')

theorem Attribute.Formed.leading_blank {a : Attribute} (h : a.Formed) : AllBlank a.leading := by
  cases h <;> assumption

theorem isTwigSecond_of_isValueStop {c : Char} (h : isValueStop c = true) :
    isTwigSecond c = false :=
  isTwigSecond_eq_false h (by decide)

theorem isTwigSecond_of_mark {c : Char} (h : c = '"' ∨ c = '\'') : isTwigSecond c = false := by
  rcases h with rfl | rfl <;> decide

/-! ## What is read has the form -/

theorem unquotedValue_sound {s value rest : Text} (hs : Text.endsRun isBlank s = true)
    (hdouble : s.head? ≠ some '"') (hsingle : s.head? ≠ some '\'')
    (h : Markup.value isValueStop s = .ok (value, rest)) :
    IsWrittenValue .none value ∧ (rest ≠ [] →
      rest.head? = some '>' ∨ (value.isEmpty = false ∧ rest.head?.any isBlank = true)) := by
  have happend := value_append h
  obtain ⟨hv, hb⟩ := value_sound (fun c => isTwigSecond_of_isValueStop) h
  have hwritten : IsWrittenValue .none value := by
    cases value with
    | nil => exact ⟨hv, by decide, by decide⟩
    | cons d value =>
      rw [← happend] at hdouble hsingle
      exact ⟨hv, hdouble, hsingle⟩
  refine ⟨hwritten, fun hrest => ?_⟩
  obtain ⟨c, rest, rfl⟩ := List.exists_cons_of_ne_nil hrest
  have hc : isValueStop c = true := by simpa [endsValue] using hb
  cases value with
  | nil =>
    rw [List.nil_append] at happend
    subst happend
    have hblank : isBlank c = false := by simpa [Text.endsRun] using hs
    have hgt : c = '>' := by simpa [isValueStop, hblank] using hc
    exact .inl (by rw [hgt]; rfl)
  | cons d value =>
    by_cases hgt : c = '>'
    · exact .inl (by rw [hgt]; rfl)
    · exact .inr ⟨rfl, by simpa [isValueStop, hgt] using hc⟩

theorem attributeValue_cases {tagStart s value rest : Text} {quote : Quote}
    (h : attributeValue tagStart s = .ok (value, quote, rest)) :
    (∃ mark r, (mark = '"' ∧ quote = .double ∨ mark = '\'' ∧ quote = .single) ∧ s = mark :: r ∧
        quoted mark ⟨.attributeValue, tagStart⟩ r = .ok (value, rest)) ∨
      (quote = .none ∧ s ≠ [] ∧ s.head? ≠ some '"' ∧ s.head? ≠ some '\'' ∧
        Markup.value isValueStop s = .ok (value, rest)) := by
  unfold attributeValue at h
  split at h
  · cases h
  · rename_i r
    obtain ⟨⟨v, rest'⟩, hv, he⟩ := exists_of_map_eq_ok h
    simp only [Prod.mk.injEq] at he
    obtain ⟨rfl, rfl, rfl⟩ := he
    exact .inl ⟨'"', r, .inl ⟨rfl, rfl⟩, rfl, hv⟩
  · rename_i r
    obtain ⟨⟨v, rest'⟩, hv, he⟩ := exists_of_map_eq_ok h
    simp only [Prod.mk.injEq] at he
    obtain ⟨rfl, rfl, rfl⟩ := he
    exact .inl ⟨'\'', r, .inr ⟨rfl, rfl⟩, rfl, hv⟩
  · rename_i hnil hdouble hsingle
    obtain ⟨⟨v, rest'⟩, hv, he⟩ := exists_of_map_eq_ok h
    simp only [Prod.mk.injEq] at he
    obtain ⟨rfl, rfl, rfl⟩ := he
    exact .inr ⟨rfl, hnil, fun hd => (List.head?_eq_some_iff.mp hd).elim hdouble,
      fun hd => (List.head?_eq_some_iff.mp hd).elim hsingle, hv⟩

theorem attributeValue_sound {tagStart s value rest : Text} {quote : Quote}
    (hs : Text.endsRun isBlank s = true)
    (h : attributeValue tagStart s = .ok (value, quote, rest)) :
    IsWrittenValue quote value ∧ (rest ≠ [] →
      quote ≠ .none ∨ rest.head? = some '>' ∨
        (value.isEmpty = false ∧ rest.head?.any isBlank = true)) := by
  rcases attributeValue_cases h with ⟨mark, r, ⟨rfl, rfl⟩ | ⟨rfl, rfl⟩, -, hv⟩ |
    ⟨rfl, -, hdouble, hsingle, hv⟩
  · exact ⟨quoted_sound (by decide) hv, fun _ => .inl (by decide)⟩
  · exact ⟨quoted_sound (by decide) hv, fun _ => .inl (by decide)⟩
  · obtain ⟨hval, hend⟩ := unquotedValue_sound hs hdouble hsingle hv
    exact ⟨hval, fun hrest => .inr (hend hrest)⟩

theorem attributeName_of_opensPiece {s name next : Text} (ht : twig? s = none)
    (hopen : opensPiece s = true) (hdouble : s.head? ≠ some '"') (hsingle : s.head? ≠ some '\'')
    (h : attributeName s = (name, next)) : IsAttributeName name ∧ nameEnds name next = true := by
  cases s with
  | nil => cases hopen
  | cons c r =>
    simp only [opensPiece, Bool.and_eq_true, Bool.not_eq_true', Bool.and_eq_false_iff,
      decide_eq_true_eq, decide_eq_false_iff_not] at hopen
    obtain ⟨⟨hblank, hgt⟩, hslash⟩ := hopen
    exact attributeName_sound ht hblank hgt (by simpa using hdouble) (by simpa using hsingle)
      (fun hcd => hslash.elim (· hcd.1) (· hcd.2)) h

theorem namedAttribute_sound {tagStart leading s rest : Text} {a : Attribute}
    (hl : AllBlank leading) (ht : twig? s = none) (hopen : opensPiece s = true)
    (hdouble : s.head? ≠ some '"') (hsingle : s.head? ≠ some '\'')
    (h : namedAttribute tagStart leading s = .ok (a, rest)) :
    a.Formed ∧ (rest ≠ [] → a.endsBefore rest = true) := by
  unfold namedAttribute at h
  rcases hname : attributeName s with ⟨name, next⟩
  obtain ⟨hform, hends⟩ := attributeName_of_opensPiece ht hopen hdouble hsingle hname
  rw [hname] at h
  simp only at h
  split at h
  · obtain ⟨⟨value, quote, rest'⟩, hq, he⟩ := exists_of_map_eq_ok h
    simp only [Prod.mk.injEq] at he
    obtain ⟨rfl, rfl⟩ := he
    obtain ⟨hval, hend⟩ := attributeValue_sound (Text.endsRun_dropWhile _ _) hq
    refine ⟨.valued hl hform (fun _ => Text.mem_takeWhile) (fun _ => Text.mem_takeWhile) hval,
      fun hrest => ?_⟩
    simpa [Attribute.endsBefore, or_assoc] using hend hrest
  · rename_i hno
    simp only [Except.ok.injEq, Prod.mk.injEq] at h
    obtain ⟨rfl, rfl⟩ := h
    refine ⟨.bare hl hform, fun _ => ?_⟩
    simp only [Attribute.endsBefore, hends, Bool.true_and, decide_eq_true_eq]
    exact fun heq => (List.head?_eq_some_iff.mp heq).elim hno

/-- A piece that is read has the form of a piece and ends in front of the rest, if there is one. -/
theorem piece_sound {tagStart leading s rest : Text} {a : Attribute} (hl : AllBlank leading)
    (hopen : opensPiece s = true) (h : piece tagStart leading s = .ok (a, rest)) :
    a.Formed ∧ (rest ≠ [] → a.endsBefore rest = true) := by
  unfold piece at h
  split at h
  · rename_i v hv
    obtain ⟨⟨text, r⟩, hp, he⟩ := exists_of_map_eq_ok h
    simp only [Prod.mk.injEq] at he
    obtain ⟨rfl, rfl⟩ := he
    have ht := twig?_rest hv hp []
    have hv' := Verbatim.take_rest (twig?_stop hv) hp []
    rw [List.append_nil] at ht hv'
    exact ⟨.twig hl ht hv', fun _ => rfl⟩
  · rename_i ht
    split at h
    · obtain ⟨⟨inner, r⟩, hp, he⟩ := exists_of_map_eq_ok h
      simp only [Prod.mk.injEq] at he
      obtain ⟨rfl, rfl⟩ := he
      exact ⟨.quoted hl (.inl rfl) (quoted_sound (by decide) hp), fun _ => rfl⟩
    · obtain ⟨⟨inner, r⟩, hp, he⟩ := exists_of_map_eq_ok h
      simp only [Prod.mk.injEq] at he
      obtain ⟨rfl, rfl⟩ := he
      exact ⟨.quoted hl (.inr rfl) (quoted_sound (by decide) hp), fun _ => rfl⟩
    · rename_i hdouble hsingle
      exact namedAttribute_sound hl ht hopen
        (fun hd => (List.head?_eq_some_iff.mp hd).elim hdouble)
        (fun hd => (List.head?_eq_some_iff.mp hd).elim hsingle) h

/-! ## What has the form is read -/

theorem unquotedValue_complete {value rest : Text} (hv : IsWrittenValue .none value)
    (he : rest.head? = some '>' ∨ (value.isEmpty = false ∧ rest.head?.any isBlank = true)) :
    Text.endsRun isBlank (value ++ rest) = true ∧
      Markup.value isValueStop (value ++ rest) = .ok (value, rest) := by
  obtain ⟨hv, -, -⟩ := hv
  have hend : endsValue isValueStop rest = true := by
    rcases he with he | ⟨-, he⟩
    · simp [endsValue, he, isValueStop]
    · cases rest with
      | nil => rfl
      | cons c r =>
        have hc : isBlank c = true := by simpa using he
        simp [endsValue, isValueStop, hc]
  refine ⟨?_, value_rest (fun c => isTwigSecond_of_isValueStop) hv hend⟩
  cases value with
  | nil =>
    have hgt : rest.head? = some '>' := by simpa using he
    simp only [List.nil_append, Text.endsRun, hgt]
    decide
  | cons c value =>
    cases ht : twig? (c :: value) with
    | some v =>
      obtain rfl := eq_brace_of_twig? ht
      show (!isBlank '{') = true
      decide
    | none =>
      have hc := IsValue.head_not_stop ht hv
      simp only [isValueStop, Bool.or_eq_false_iff] at hc
      simp [Text.endsRun, hc.1]

theorem attributeValue_complete {value rest : Text} {quote : Quote} (tagStart : Text)
    (hv : IsWrittenValue quote value)
    (he : quote ≠ .none ∨ rest.head? = some '>' ∨
      (value.isEmpty = false ∧ rest.head?.any isBlank = true)) :
    Text.endsRun isBlank (quote.mark ++ value ++ quote.mark ++ rest) = true ∧
      attributeValue tagStart (quote.mark ++ value ++ quote.mark ++ rest) =
        .ok (value, quote, rest) := by
  cases quote with
  | double =>
    have hmark : isTwigSecond '"' = false := by decide
    have hq := quoted_rest hmark hv ⟨.attributeValue, tagStart⟩ rest
    refine ⟨by simp [Quote.mark, Text.endsRun]; decide, ?_⟩
    simp [Quote.mark, attributeValue, hq, Except.map]
  | single =>
    have hmark : isTwigSecond '\'' = false := by decide
    have hq := quoted_rest hmark hv ⟨.attributeValue, tagStart⟩ rest
    refine ⟨by simp [Quote.mark, Text.endsRun]; decide, ?_⟩
    simp [Quote.mark, attributeValue, hq, Except.map]
  | none =>
    obtain ⟨hrun, hval⟩ := unquotedValue_complete hv (he.resolve_left (by simp))
    simp only [Quote.mark, List.nil_append, List.append_nil]
    refine ⟨hrun, ?_⟩
    obtain ⟨-, hdouble, hsingle⟩ := hv
    -- an unquoted value does not begin with a mark, so neither does the text
    have hhead (c : Char) (hc : value.head? ≠ some c) (hgt : c ≠ '>') (r : Text)
        (heq : value ++ rest = c :: r) : False := by
      cases value with
      | nil =>
        have : rest.head? = some '>' := by simpa using he
        simp_all
      | cons d value => simp_all
    unfold attributeValue
    split
    · rename_i hnil
      have : rest.head? = some '>' := by simp_all
      simp_all
    · rename_i r heq
      exact (hhead _ hdouble (by decide) r heq).elim
    · rename_i r heq
      exact (hhead _ hsingle (by decide) r heq).elim
    · rename_i h1 h2
      have : Markup.value (fun c => isBlank c || decide (c = '>')) (value ++ rest) =
        .ok (value, rest) := hval
      simp [this, Except.map]

theorem nameEnds_separator {name sep : Text} (hname : IsAttributeName name)
    (hsep : ∃ c r, sep = c :: r ∧ (isBlank c = true ∨ c = '=')) : nameEnds name sep = true := by
  rcases hname with rfl | ⟨-, hrun⟩
  · simp [nameEnds]
  · simp [nameEnds, nameRun_separator hrun hsep]

theorem separator_head {before : Text} (hb : AllBlank before) (r : Text) :
    ∃ c r', before ++ '=' :: r = c :: r' ∧ (isBlank c = true ∨ c = '=') := by
  cases before with
  | nil => exact ⟨'=', r, rfl, .inr rfl⟩
  | cons c before => exact ⟨c, _, rfl, .inl (hb c List.mem_cons_self)⟩

theorem piece_name {name next : Text} (hname : IsAttributeName name)
    (hends : nameEnds name next = true) :
    opensPiece (name ++ next) = true ∧ ∀ tagStart leading,
      piece tagStart leading (name ++ next) = namedAttribute tagStart leading (name ++ next) := by
  obtain ⟨c, r, heq, ht, hblank, hgt, hdouble, hsingle, hslash⟩ := head_of_nameEnds hname hends
  have hno : (decide (c = '/') && decide (r.head? = some '>')) = false := by
    simpa using fun hc hr => hslash ⟨hc, hr⟩
  rw [heq]
  refine ⟨by simp [opensPiece, hblank, hgt, hno], fun tagStart leading => ?_⟩
  unfold piece
  split
  · simp_all
  · split <;> simp_all

theorem namedAttribute_separator {name before : Text} (hname : IsAttributeName name)
    (hbefore : AllBlank before) (tagStart leading r : Text) :
    namedAttribute tagStart leading (name ++ (before ++ '=' :: r)) =
      (attributeValue tagStart (r.dropWhile isBlank)).map fun (value, quote, rest) =>
        (.named ⟨leading, name, before ++ '=' :: r.takeWhile isBlank, some value, quote⟩,
          rest) := by
  have hends := nameEnds_separator hname (separator_head hbefore r)
  have heq : Text.endsRun isBlank ('=' :: r) = true := by
    show (!isBlank '=') = true
    decide
  rw [namedAttribute, attributeName_of_nameEnds hname hends]
  simp only [Text.dropWhile_run hbefore heq, Text.takeWhile_run hbefore heq]

theorem namedAttribute_complete {a : NamedAttribute} {rest : Text} (tagStart : Text)
    (hf : (Attribute.named a).Formed) (he : (Attribute.named a).endsBefore rest = true) :
    opensPiece ((Attribute.named a).body ++ rest) = true ∧
      piece tagStart a.leading ((Attribute.named a).body ++ rest) = .ok (.named a, rest) := by
  cases hf with
  | bare hl hname =>
    rename_i leading name
    simp only [Attribute.endsBefore, Bool.and_eq_true, decide_eq_true_eq] at he
    obtain ⟨hopen, hpiece⟩ := piece_name hname he.1
    refine ⟨hopen, ?_⟩
    simp only [Attribute.body]
    rw [hpiece, namedAttribute, attributeName_of_nameEnds hname he.1]
    simp only
    split
    · rename_i r heq
      simp [heq] at he
    · rfl
  | valued hl hname hbefore hbehind hval =>
    rename_i leading name before behind value quote
    have hend : quote ≠ .none ∨ rest.head? = some '>' ∨
        (value.isEmpty = false ∧ rest.head?.any isBlank = true) := by
      simpa [Attribute.endsBefore, or_assoc] using he
    obtain ⟨hrun, hattr⟩ := attributeValue_complete tagStart hval hend
    have hbody : (Attribute.named ⟨leading, name, before ++ '=' :: behind, some value, quote⟩).body
        ++ rest = name ++ (before ++ '=' :: (behind ++ (quote.mark ++ value ++ quote.mark ++ rest)))
        := by
      simp [Attribute.body]
    obtain ⟨hopen, hpiece⟩ := piece_name hname (nameEnds_separator hname (separator_head hbefore
      (behind ++ (quote.mark ++ value ++ quote.mark ++ rest))))
    rw [hbody]
    refine ⟨hopen, ?_⟩
    rw [hpiece, namedAttribute_separator hname hbefore, Text.dropWhile_run hbehind hrun,
      Text.takeWhile_run hbehind hrun, hattr]
    rfl

/-- A piece that has the form of a piece is read when it ends in front of the rest. -/
theorem piece_complete {a : Attribute} {rest : Text} (tagStart : Text) (hf : a.Formed)
    (he : a.endsBefore rest = true) :
    opensPiece (a.body ++ rest) = true ∧
      piece tagStart a.leading (a.body ++ rest) = .ok (a, rest) := by
  cases a with
  | named a => exact namedAttribute_complete tagStart hf he
  | verbatim leading text =>
    cases hf with
    | twig hl ht hv =>
      have ht' := twig?_rest ht hv rest
      have hv' := Verbatim.take_rest (twig?_stop ht) hv rest
      constructor
      · cases text with
        | nil => simp [twig?] at ht
        | cons c r =>
          obtain rfl := eq_brace_of_twig? ht
          simp only [Attribute.body, List.cons_append, opensPiece]
          simp
          decide
      · simp [piece, Attribute.body, Attribute.leading, ht', hv', Except.map]
    | quoted hl hmark hv =>
      rename_i inner mark
      have hq := quoted_rest (isTwigSecond_of_mark hmark) hv ⟨.attributeValue, tagStart⟩ rest
      have ht : twig? (mark :: (inner ++ mark :: rest)) = none :=
        twig?_of_ne_brace (by rcases hmark with rfl | rfl <;> decide)
      rcases hmark with rfl | rfl
      · refine ⟨by simp [opensPiece, Attribute.body]; decide, ?_⟩
        simp [piece, Attribute.body, Attribute.leading, ht, hq, Except.map]
      · refine ⟨by simp [opensPiece, Attribute.body]; decide, ?_⟩
        simp [piece, Attribute.body, Attribute.leading, ht, hq, Except.map]

end ExtensionAudit.Markup
