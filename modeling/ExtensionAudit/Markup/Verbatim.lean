import ExtensionAudit.Text.Search
/-
  Verbatim constructs: Twig constructs, comments and declarations are taken as
  they stand, through their terminator. A source that ends inside a construct is
  cut there.

  Main statements: `Verbatim.take_append` and `value_append`, reading loses
  nothing.
-/

namespace ExtensionAudit.Markup

/-- The constructs a template can be cut inside of. -/
inductive Construct where
  | twigExpression | twigTag | twigComment | comment | declaration
  | startTag | attributeValue | rawTextElement | endTag
  deriving DecidableEq, Repr

def Construct.name : Construct → String
  | .twigExpression => "Twig expression"
  | .twigTag => "Twig tag"
  | .twigComment => "Twig comment"
  | .comment => "comment"
  | .declaration => "declaration"
  | .startTag => "start tag"
  | .attributeValue => "attribute value"
  | .rawTextElement => "raw text element"
  | .endTag => "end tag"

/-- The source ended inside `construct`, which is reported where the source still holds
`rest`. -/
structure Cut where
  construct : Construct
  rest : Text
  deriving DecidableEq, Repr

/-- A construct that is read through its terminator. The first `skip` characters are its opener
and cannot take part in the terminator. -/
structure Verbatim where
  skip : Nat
  stop : Text
  construct : Construct
  deriving DecidableEq, Repr

/-- The Twig construct that the text begins with. -/
def twig? : Text → Option Verbatim
  | '{' :: '{' :: _ => some ⟨2, ['}', '}'], .twigExpression⟩
  | '{' :: '%' :: _ => some ⟨2, ['%', '}'], .twigTag⟩
  | '{' :: '#' :: _ => some ⟨2, ['#', '}'], .twigComment⟩
  | _ => none

/-- Reads a verbatim construct through its terminator. -/
def Verbatim.take (v : Verbatim) (s : Text) : Except Cut (Text × Text) :=
  match Text.splitAfter v.stop (s.drop v.skip) with
  | some (body, rest) => .ok (s.take v.skip ++ body, rest)
  | none => .error ⟨v.construct, s⟩

theorem Verbatim.take_append {v : Verbatim} {s a b : Text} (h : v.take s = .ok (a, b)) :
    a ++ b = s := by
  unfold Verbatim.take at h
  split at h
  · rename_i body rest hs
    simp only [Except.ok.injEq, Prod.mk.injEq] at h
    obtain ⟨rfl, rfl⟩ := h
    rw [List.append_assoc, Text.splitAfter_append hs, List.take_append_drop]
  · cases h

theorem Verbatim.take_ne_nil {v : Verbatim} {s a b : Text} (hstop : v.stop ≠ [])
    (h : v.take s = .ok (a, b)) : a ≠ [] := by
  unfold Verbatim.take at h
  split at h
  · rename_i body rest hs
    simp only [Except.ok.injEq, Prod.mk.injEq] at h
    obtain ⟨rfl, -⟩ := h
    simp [Text.splitAfter_ne_nil hstop hs]
  · cases h

theorem length_lt_of_append {a b s : Text} (h : a ++ b = s) (ha : a ≠ []) :
    b.length < s.length := by
  have := List.length_pos_iff.2 ha
  rw [← h, List.length_append]
  omega

theorem twig?_stop {s : Text} {v : Verbatim} (h : twig? s = some v) : v.stop ≠ [] := by
  unfold twig? at h
  split at h <;> simp_all <;> (rw [← h]; simp)

theorem twig_length {s a b : Text} {v : Verbatim} (h : twig? s = some v)
    (ht : v.take s = .ok (a, b)) : b.length < s.length :=
  length_lt_of_append (Verbatim.take_append ht) (Verbatim.take_ne_nil (twig?_stop h) ht)

/-- Reads up to the first character satisfying `stop`, taking Twig constructs whole; `seen`
holds what has been read, last character first. -/
def valueOnto (stop : Char → Bool) (seen s : Text) : Except Cut (Text × Text) :=
  match s with
  | [] => .ok (seen.reverse, [])
  | c :: r =>
    match _ht : twig? (c :: r) with
    | some v =>
      match _hr : v.take (c :: r) with
      | .error cut => .error cut
      | .ok (text, rest) => valueOnto stop (text.reverse ++ seen) rest
    | none => if stop c then .ok (seen.reverse, c :: r) else valueOnto stop (c :: seen) r
termination_by s.length
decreasing_by
  · exact twig_length _ht _hr
  · simp

/-- Reads up to the first character satisfying `stop` or the end, taking Twig constructs
whole. -/
def value (stop : Char → Bool) (s : Text) : Except Cut (Text × Text) := valueOnto stop [] s

theorem valueOnto_append {stop : Char → Bool} {seen s a b : Text}
    (h : valueOnto stop seen s = .ok (a, b)) : a ++ b = seen.reverse ++ s := by
  fun_induction valueOnto stop seen s with
  | case1 => simp_all
  | case2 seen c r v ht cut hr => simp at h
  | case3 seen c r v ht text rest hr ih =>
    rw [ih h, ← Verbatim.take_append hr]; simp
  | case4 => simp_all
  | case5 seen c r ht hc ih => rw [ih h]; simp

theorem valueOnto_stop {stop : Char → Bool} {seen s a b : Text} {c : Char}
    (h : valueOnto stop seen s = .ok (a, c :: b)) : stop c = true := by
  fun_induction valueOnto stop seen s with
  | case1 => simp at h
  | case2 => simp at h
  | case3 seen c r v ht text rest hr ih => exact ih h
  | case4 seen c' r ht hc =>
    simp only [Except.ok.injEq, Prod.mk.injEq, List.cons.injEq] at h
    rw [← h.2.1]; exact hc
  | case5 seen c r ht hc ih => exact ih h

theorem value_append {stop : Char → Bool} {s a b : Text} (h : value stop s = .ok (a, b)) :
    a ++ b = s := by
  simpa using valueOnto_append h

/-- Reads a quoted text behind its opening mark: the text between the marks and the rest behind
the closing one. -/
def quoted (mark : Char) (unterminated : Cut) (s : Text) : Except Cut (Text × Text) :=
  match value (· == mark) s with
  | .error cut => .error cut
  | .ok (_, []) => .error unterminated
  | .ok (inner, _ :: rest) => .ok (inner, rest)

theorem quoted_append {mark : Char} {u : Cut} {s inner rest : Text}
    (h : quoted mark u s = .ok (inner, rest)) : inner ++ mark :: rest = s := by
  unfold quoted at h
  split at h
  · cases h
  · cases h
  · rename_i a c r hv
    simp only [Except.ok.injEq, Prod.mk.injEq] at h
    obtain ⟨rfl, rfl⟩ := h
    have hc : c = mark := by simpa using valueOnto_stop hv
    rw [← hc, value_append hv]

end ExtensionAudit.Markup
