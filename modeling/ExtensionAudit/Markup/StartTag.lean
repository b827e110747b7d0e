import ExtensionAudit.Markup.Node
import ExtensionAudit.Markup.Verbatim
/-
  Reading start tags: the name, then attributes and verbatim pieces, each behind
  its blanks, up to `>` or `/>`.

  Main statement: `attributes_append`, the pieces and the end of the tag are the
  text that was read.
-/

namespace ExtensionAudit.Markup

def isNameChar (c : Char) : Bool :=
  c.isAlphanum || c = '-' || c = '_' || c = ':' || c = '.'

def endsName : Text → Bool
  | [] => true
  | '/' :: '>' :: _ => true
  | c :: r => isBlank c || c = '>' || c = '=' || c = '"' || c = '\'' || (twig? (c :: r)).isSome

/-- Cuts in front of the first place where a name ends. -/
def nameRun : Text → Text × Text
  | [] => ([], [])
  | c :: r => if endsName (c :: r) then ([], c :: r) else (nameRun r).map (c :: ·) id

/-- Reads an attribute name. A character that could not begin one, such as a stray `=`, is a
name by itself. -/
def attributeName (s : Text) : Text × Text :=
  match nameRun s with
  | ([], c :: r) => ([c], r)
  | cut => cut

/-- Reads the value behind a separator, and how it is quoted. -/
def attributeValue (tagStart s : Text) : Except Cut (Text × Quote × Text) :=
  match s with
  | [] => .error ⟨.startTag, tagStart⟩
  | '"' :: r => (quoted '"' ⟨.attributeValue, tagStart⟩ r).map fun (v, rest) => (v, .double, rest)
  | '\'' :: r => (quoted '\'' ⟨.attributeValue, tagStart⟩ r).map fun (v, rest) => (v, .single, rest)
  | s => (value (fun c => isBlank c || c = '>') s).map fun (v, rest) => (v, .none, rest)

/-- Reads a named attribute behind its leading blanks. Blanks belong to the separator only when
an `=` follows them. -/
def namedAttribute (tagStart leading s : Text) : Except Cut (Attribute × Text) :=
  let (name, r) := attributeName s
  match r.dropWhile isBlank with
  | '=' :: r' =>
    let separator := r.takeWhile isBlank ++ '=' :: r'.takeWhile isBlank
    (attributeValue tagStart (r'.dropWhile isBlank)).map fun (v, quote, rest) =>
      (.named ⟨leading, name, separator, some v, quote⟩, rest)
  | _ => .ok (.named ⟨leading, name, [], none, .none⟩, r)

/-- Reads one piece of a start tag behind its leading blanks. -/
def piece (tagStart leading s : Text) : Except Cut (Attribute × Text) :=
  match twig? s with
  | some v => (v.take s).map fun (text, rest) => (.verbatim leading text, rest)
  | none =>
    match s with
    | '"' :: r => (quoted '"' ⟨.attributeValue, tagStart⟩ r).map fun (inner, rest) =>
        (.verbatim leading ('"' :: inner ++ ['"']), rest)
    | '\'' :: r => (quoted '\'' ⟨.attributeValue, tagStart⟩ r).map fun (inner, rest) =>
        (.verbatim leading ('\'' :: inner ++ ['\'']), rest)
    | s => namedAttribute tagStart leading s

/-! ## Nothing is lost -/

theorem nameRun_append (s : Text) : (nameRun s).1 ++ (nameRun s).2 = s := by
  induction s with
  | nil => rfl
  | cons c r ih =>
    unfold nameRun
    split
    · rfl
    · simp [Prod.map, ih]

theorem attributeName_append (s : Text) : (attributeName s).1 ++ (attributeName s).2 = s := by
  have h := nameRun_append s
  unfold attributeName
  split
  · rename_i c r hr
    rw [hr] at h
    simpa using h
  · exact h

theorem attributeName_ne_nil {s : Text} (hs : s ≠ []) : (attributeName s).1 ≠ [] := by
  have h := nameRun_append s
  unfold attributeName
  split
  · simp
  · rename_i hr
    intro h0
    cases h2 : (nameRun s).2 with
    | nil => rw [h0, h2] at h; exact hs h.symm
    | cons c r => exact hr c r (Prod.ext h0 h2)

theorem attributeValue_append {tagStart s v rest : Text} {q : Quote}
    (h : attributeValue tagStart s = .ok (v, q, rest)) : q.mark ++ v ++ q.mark ++ rest = s := by
  unfold attributeValue at h
  split at h
  · cases h
  all_goals
    simp only [Except.map] at h
    split at h
    · cases h
    · rename_i p hp
      simp only [Except.ok.injEq, Prod.mk.injEq] at h
      obtain ⟨rfl, rfl, rfl⟩ := h
      first
      | simpa [Quote.mark] using quoted_append hp
      | simpa [Quote.mark] using value_append hp

theorem namedAttribute_append {tagStart leading s rest : Text} {a : Attribute}
    (h : namedAttribute tagStart leading s = .ok (a, rest)) :
    a.leading = leading ∧ a.body ++ rest = s := by
  unfold namedAttribute at h
  have hn := attributeName_append s
  revert h hn
  generalize attributeName s = p
  obtain ⟨name, r⟩ := p
  intro h hn
  simp only at h hn
  split at h
  · rename_i r' hr
    simp only [Except.map] at h
    split at h
    · cases h
    · rename_i p hp
      simp only [Except.ok.injEq, Prod.mk.injEq] at h
      obtain ⟨rfl, rfl⟩ := h
      refine ⟨rfl, ?_⟩
      have h1 := attributeValue_append hp
      have h2 := List.takeWhile_append_dropWhile (p := isBlank) (l := r')
      have h3 := List.takeWhile_append_dropWhile (p := isBlank) (l := r)
      simp only [Attribute.body, List.append_assoc, List.cons_append] at *
      rw [h1, h2, ← hr, h3, hn]
  · simp only [Except.ok.injEq, Prod.mk.injEq] at h
    obtain ⟨rfl, rfl⟩ := h
    exact ⟨rfl, hn⟩

theorem namedAttribute_ne_nil {tagStart leading s rest : Text} {a : Attribute} (hs : s ≠ [])
    (h : namedAttribute tagStart leading s = .ok (a, rest)) : a.body ≠ [] := by
  unfold namedAttribute at h
  have hn := attributeName_ne_nil hs
  revert h hn
  generalize attributeName s = p
  obtain ⟨name, r⟩ := p
  intro h hn
  simp only at h hn
  split at h
  · simp only [Except.map] at h
    split at h
    · cases h
    · simp only [Except.ok.injEq, Prod.mk.injEq] at h
      obtain ⟨rfl, -⟩ := h
      simp [Attribute.body, hn]
  · simp only [Except.ok.injEq, Prod.mk.injEq] at h
    obtain ⟨rfl, -⟩ := h
    exact hn

theorem piece_append {tagStart leading s rest : Text} {a : Attribute}
    (h : piece tagStart leading s = .ok (a, rest)) :
    a.leading = leading ∧ a.body ++ rest = s := by
  unfold piece at h
  split at h
  · simp only [Except.map] at h
    split at h
    · cases h
    · rename_i p hp
      simp only [Except.ok.injEq, Prod.mk.injEq] at h
      obtain ⟨rfl, rfl⟩ := h
      exact ⟨rfl, Verbatim.take_append hp⟩
  · split at h
    · simp only [Except.map] at h
      split at h
      · cases h
      · rename_i p hp
        simp only [Except.ok.injEq, Prod.mk.injEq] at h
        obtain ⟨rfl, rfl⟩ := h
        exact ⟨rfl, by simpa [Attribute.body] using quoted_append hp⟩
    · simp only [Except.map] at h
      split at h
      · cases h
      · rename_i p hp
        simp only [Except.ok.injEq, Prod.mk.injEq] at h
        obtain ⟨rfl, rfl⟩ := h
        exact ⟨rfl, by simpa [Attribute.body] using quoted_append hp⟩
    · exact namedAttribute_append h

theorem piece_ne_nil {tagStart leading s rest : Text} {a : Attribute} (hs : s ≠ [])
    (h : piece tagStart leading s = .ok (a, rest)) : a.body ≠ [] := by
  unfold piece at h
  split at h
  · rename_i v hv
    simp only [Except.map] at h
    split at h
    · cases h
    · rename_i p hp
      simp only [Except.ok.injEq, Prod.mk.injEq] at h
      obtain ⟨rfl, -⟩ := h
      exact Verbatim.take_ne_nil (twig?_stop hv) hp
  · split at h
    · simp only [Except.map] at h
      split at h
      · cases h
      · simp only [Except.ok.injEq, Prod.mk.injEq] at h
        obtain ⟨rfl, -⟩ := h
        simp [Attribute.body]
    · simp only [Except.map] at h
      split at h
      · cases h
      · simp only [Except.ok.injEq, Prod.mk.injEq] at h
        obtain ⟨rfl, -⟩ := h
        simp [Attribute.body]
    · exact namedAttribute_ne_nil hs h

theorem piece_length {tagStart leading s rest : Text} {a : Attribute} (hs : s ≠ [])
    (h : piece tagStart leading s = .ok (a, rest)) : rest.length < s.length :=
  length_lt_of_append (piece_append h).2 (piece_ne_nil hs h)

theorem length_dropWhile_le (p : Char → Bool) (s : Text) : (s.dropWhile p).length ≤ s.length :=
  (List.dropWhile_suffix p).length_le

/-! ## The whole tag -/

/-- What follows a tag name: the pieces of the start tag, the text that ends it, whether the
element closes itself, and the rest of the source. -/
structure TagEnd where
  attributes : List Attribute
  tail : Text
  selfClosing : Bool
  rest : Text
  deriving DecidableEq, Repr

/-- Reads the pieces of a start tag up to its end; `seen` holds them last first. -/
def attributesOnto (tagStart : Text) (seen : List Attribute) (s : Text) : Except Cut TagEnd :=
  match _hs : s.dropWhile isBlank with
  | [] => .error ⟨.startTag, tagStart⟩
  | '>' :: r => .ok ⟨seen.reverse, s.takeWhile isBlank ++ ['>'], false, r⟩
  | '/' :: '>' :: r => .ok ⟨seen.reverse, s.takeWhile isBlank ++ ['/', '>'], true, r⟩
  | c :: r =>
    match _ha : piece tagStart (s.takeWhile isBlank) (c :: r) with
    | .error cut => .error cut
    | .ok (a, rest) => attributesOnto tagStart (a :: seen) rest
termination_by s.length
decreasing_by
  have h1 := piece_length (by simp) _ha
  have h2 := length_dropWhile_le isBlank s
  rw [_hs] at h2
  omega

/-- Reads the pieces of a start tag behind its name. -/
def attributes (tagStart s : Text) : Except Cut TagEnd := attributesOnto tagStart [] s

theorem attributesOnto_append {tagStart s : Text} {seen : List Attribute} {found : TagEnd}
    (h : attributesOnto tagStart seen s = .ok found) :
    found.attributes.flatMap Attribute.render ++ found.tail ++ found.rest =
      seen.reverse.flatMap Attribute.render ++ s := by
  fun_induction attributesOnto tagStart seen s with
  | case1 => simp at h
  | case2 seen s r hs =>
    simp only [Except.ok.injEq] at h
    subst h
    have := List.takeWhile_append_dropWhile (p := isBlank) (l := s)
    rw [hs] at this
    simp [this]
  | case3 seen s r hs =>
    simp only [Except.ok.injEq] at h
    subst h
    have := List.takeWhile_append_dropWhile (p := isBlank) (l := s)
    rw [hs] at this
    simp [this]
  | case4 => simp at h
  | case5 seen s c r _ _ hs a rest ha ih =>
    rw [ih h]
    obtain ⟨h1, h2⟩ := piece_append ha
    have h3 := List.takeWhile_append_dropWhile (p := isBlank) (l := s)
    rw [hs, ← h2, ← h1] at h3
    simp [Attribute.render, h3]

/-- The pieces and the end of the tag are the text that was read. -/
theorem attributes_append {tagStart s : Text} {found : TagEnd}
    (h : attributes tagStart s = .ok found) :
    found.attributes.flatMap Attribute.render ++ found.tail ++ found.rest = s := by
  simpa using attributesOnto_append h

end ExtensionAudit.Markup
