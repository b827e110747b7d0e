import ExtensionAudit.Markup.Verbatim
import ExtensionAudit.Proofs.Results
/-
  Reading in front of another rest. What the scanners take depends on the part
  that they take and on little of what stands behind it: a cut on nothing at all,
  a run of characters on the first one behind it, a value on the stop behind it.

  Main statements: `Text.splitAfter_rest`, `Verbatim.take_rest` and `value_rest`,
  the same part is taken in front of any other rest of that kind.
-/

namespace ExtensionAudit

namespace Text

/-! ## Runs -/

def endsRun (p : Char → Bool) (s : Text) : Bool := !s.head?.any p

theorem endsRun_dropWhile (p : Char → Bool) (s : Text) : endsRun p (s.dropWhile p) = true := by
  have h := List.head?_dropWhile_not p s
  unfold endsRun
  cases hs : (s.dropWhile p).head? with
  | none => rfl
  | some c => simpa [hs] using h

theorem takeWhile_run {p : Char → Bool} {w rest : Text} (hw : ∀ c ∈ w, p c = true)
    (hr : endsRun p rest = true) : (w ++ rest).takeWhile p = w := by
  rw [List.takeWhile_append_of_pos hw]
  cases rest with
  | nil => simp
  | cons c r => simp_all [endsRun]

theorem dropWhile_run {p : Char → Bool} {w rest : Text} (hw : ∀ c ∈ w, p c = true)
    (hr : endsRun p rest = true) : (w ++ rest).dropWhile p = rest := by
  rw [List.dropWhile_append_of_pos hw]
  cases rest with
  | nil => simp
  | cons c r => simp_all [endsRun]

/-- What a run ends in front of is settled by the first character that it passes over not. -/
theorem head?_dropWhile_cons {p : Char → Bool} {c : Char} (hc : p c = false) (u x x' : Text) :
    ((u ++ c :: x).dropWhile p).head? = ((u ++ c :: x').dropWhile p).head? := by
  induction u with
  | nil => simp [hc]
  | cons d u ih =>
    simp only [List.cons_append, List.dropWhile_cons]
    cases p d
    · rfl
    · exact ih

theorem mem_takeWhile {p : Char → Bool} {s : Text} {c : Char} (h : c ∈ s.takeWhile p) :
    p c = true :=
  List.all_eq_true.mp List.all_takeWhile c h

/-! ## Cuts -/

theorem strip?_eq_some_iff {front s r : Text} : strip? front s = some r ↔ s = front ++ r := by
  refine ⟨fun h => (strip?_append h).symm, ?_⟩
  rintro rfl
  induction front with
  | nil => rfl
  | cons c front ih => simp [strip?, ih]

theorem strip?_eq_none_iff {front s : Text} : strip? front s = none ↔ ¬ front <+: s := by
  rw [Option.eq_none_iff_forall_ne_some]
  constructor
  · rintro h ⟨r, rfl⟩
    exact h r (strip?_eq_some_iff.mpr rfl)
  · rintro h r hr
    exact h ⟨r, (strip?_eq_some_iff.mp hr).symm⟩

/-- What a cut takes ends with the terminator, and is taken in front of any rest. -/
theorem splitAfterOnto_rest {stop seen s a b : Text} (hstop : stop ≠ [])
    (h : splitAfterOnto stop seen s = some (a, b)) :
    ∃ m, a = seen.reverse ++ m ∧ s = m ++ b ∧ stop <:+ m ∧
      ∀ seen' b', splitAfterOnto stop seen' (m ++ b') = some (seen'.reverse ++ m, b') := by
  induction s generalizing seen with
  | nil =>
    simp only [splitAfterOnto, Option.map_eq_some_iff] at h
    obtain ⟨r, hr, -⟩ := h
    exact absurd (List.append_eq_nil_iff.mp (strip?_append hr)).1 hstop
  | cons c s ih =>
    simp only [splitAfterOnto] at h
    split at h
    · rename_i r hr
      simp only [Option.some.injEq, Prod.mk.injEq] at h
      obtain ⟨rfl, rfl⟩ := h
      refine ⟨stop, rfl, (strip?_append hr).symm, List.suffix_rfl, fun seen' b' => ?_⟩
      obtain ⟨d, stop', rfl⟩ := List.exists_cons_of_ne_nil hstop
      have hself : strip? (d :: stop') (d :: (stop' ++ b')) = some b' :=
        strip?_eq_some_iff.mpr rfl
      simp [splitAfterOnto, hself]
    · rename_i hnone
      obtain ⟨m, rfl, rfl, hsuffix, hrest⟩ := ih h
      refine ⟨c :: m, by simp, rfl, hsuffix.trans (List.suffix_cons c m), fun seen' b' => ?_⟩
      -- the terminator in `m` leaves no room for an earlier one that reaches behind `m`
      have hlen : stop.length ≤ (c :: m).length := by
        have := hsuffix.length_le
        simp only [List.length_cons]
        omega
      have hnone' : strip? stop (c :: (m ++ b')) = none := by
        rw [strip?_eq_none_iff] at hnone ⊢
        intro hp
        have hm : stop <+: c :: m := List.prefix_of_prefix_length_le hp ⟨b', rfl⟩ hlen
        exact hnone (hm.trans ⟨b, rfl⟩)
      simp [splitAfterOnto, hnone', hrest]

theorem splitAfter_rest {stop s a b : Text} (hstop : stop ≠ [])
    (h : splitAfter stop s = some (a, b)) (b' : Text) :
    splitAfter stop (a ++ b') = some (a, b') := by
  obtain ⟨m, rfl, -, -, hrest⟩ := splitAfterOnto_rest hstop h
  exact hrest [] b'

theorem splitAfter_suffix {stop s a b : Text} (hstop : stop ≠ [])
    (h : splitAfter stop s = some (a, b)) : stop <:+ a := by
  obtain ⟨m, rfl, -, hsuffix, -⟩ := splitAfterOnto_rest hstop h
  simpa using hsuffix

end Text

namespace Markup

/-! ## Verbatim constructs -/

theorem Verbatim.take_rest {v : Verbatim} {s a b : Text} (hstop : v.stop ≠ [])
    (h : v.take s = .ok (a, b)) (b' : Text) : v.take (a ++ b') = .ok (a, b') := by
  unfold Verbatim.take at h
  split at h
  · rename_i body rest hs
    simp only [Except.ok.injEq, Prod.mk.injEq] at h
    obtain ⟨rfl, rfl⟩ := h
    have hbody : body ≠ [] := Text.splitAfter_ne_nil hstop hs
    have hskip : (s.take v.skip).length = v.skip := by
      have happend := congrArg List.length (Text.splitAfter_append hs)
      have := List.length_pos_iff.mpr hbody
      simp only [List.length_append, List.length_drop, List.length_take] at happend ⊢
      omega
    unfold Verbatim.take
    rw [List.append_assoc, List.drop_left' hskip, List.take_left' hskip,
      Text.splitAfter_rest hstop hs]
  · cases h

theorem Verbatim.take_suffix {v : Verbatim} {s a b : Text} (hstop : v.stop ≠ [])
    (h : v.take s = .ok (a, b)) : v.stop <:+ a := by
  unfold Verbatim.take at h
  split at h
  · rename_i body rest hs
    simp only [Except.ok.injEq, Prod.mk.injEq] at h
    obtain ⟨rfl, -⟩ := h
    exact (Text.splitAfter_suffix hstop hs).trans (List.suffix_append _ _)
  · cases h

theorem twig?_cons_cons (c d : Char) (r r' : Text) :
    twig? (c :: d :: r) = twig? (c :: d :: r') := by
  unfold twig?
  split <;> simp_all

theorem twig?_singleton (c : Char) : twig? [c] = none := by
  unfold twig?
  split <;> simp_all

/-- The characters that a Twig opener can end with. -/
def isTwigSecond (c : Char) : Bool := c = '{' || c = '%' || c = '#'

theorem isTwigSecond_eq_false {p : Char → Bool} {c : Char} (hc : p c = true)
    (hp : p '{' = false ∧ p '%' = false ∧ p '#' = false) : isTwigSecond c = false := by
  obtain ⟨hbrace, hpercent, hhash⟩ := hp
  cases h : isTwigSecond c with
  | false => rfl
  | true =>
    simp only [isTwigSecond, Bool.or_eq_true, decide_eq_true_eq] at h
    rcases h with (rfl | rfl) | rfl <;> simp_all

theorem twig?_cons_of_not_second {c : Char} {r : Text} (h : r.head?.any isTwigSecond = false) :
    twig? (c :: r) = none := by
  unfold twig?
  split <;> simp_all [isTwigSecond]

theorem twig?_of_ne_brace {c : Char} {r : Text} (h : c ≠ '{') : twig? (c :: r) = none := by
  unfold twig?
  split <;> simp_all

theorem eq_brace_of_twig? {c : Char} {r : Text} {v : Verbatim} (h : twig? (c :: r) = some v) :
    c = '{' := by
  by_cases hc : c = '{'
  · exact hc
  · rw [twig?_of_ne_brace hc] at h
    cases h

/-- The Twig construct that a text begins with can be told from the text it takes. -/
theorem twig?_rest {v : Verbatim} {s a b : Text} (ht : twig? s = some v)
    (h : v.take s = .ok (a, b)) (b' : Text) : twig? (a ++ b') = some v := by
  -- the opener is passed over and the terminator is behind it
  have hlen : 2 ≤ a.length := by
    have hskip : v.skip = 2 ∧ 2 ≤ s.length := by
      unfold twig? at ht
      split at ht <;> cases ht <;> simp
    unfold Verbatim.take at h
    split at h
    · simp only [Except.ok.injEq, Prod.mk.injEq] at h
      obtain ⟨rfl, -⟩ := h
      simp only [List.length_append, List.length_take]
      omega
    · cases h
  have happend := Verbatim.take_append h
  match a, hlen with
  | c :: d :: a', _ =>
    rw [List.cons_append, List.cons_append] at happend ⊢
    rw [← ht, ← happend]
    exact twig?_cons_cons c d _ _

/-! ## Values -/

section Values

variable {stop : Char → Bool} {seen : Text}

theorem valueOnto_twig {v : Verbatim} {s text rest : Text} (ht : twig? s = some v)
    (hv : v.take s = .ok (text, rest)) :
    valueOnto stop seen s = valueOnto stop (text.reverse ++ seen) rest := by
  cases s with
  | nil => simp [twig?] at ht
  | cons c r =>
    rw [valueOnto]
    split
    · rename_i v' hv'
      rw [ht, Option.some.injEq] at hv'
      subst hv'
      split
      · rename_i herr
        rw [hv] at herr
        cases herr
      · rename_i hok
        rw [hv, Except.ok.injEq, Prod.mk.injEq] at hok
        rw [hok.1, hok.2]
    · simp_all

theorem valueOnto_char {c : Char} {r : Text} (ht : twig? (c :: r) = none)
    (hc : stop c = false) : valueOnto stop seen (c :: r) = valueOnto stop (c :: seen) r := by
  rw [valueOnto]
  split
  · simp_all
  · simp [hc]

theorem valueOnto_stopped {c : Char} {r : Text} (ht : twig? (c :: r) = none)
    (hc : stop c = true) : valueOnto stop seen (c :: r) = .ok (seen.reverse, c :: r) := by
  rw [valueOnto]
  split
  · simp_all
  · simp [hc]

/-- Whether a value ends in front of the text: with the text or at a stop. -/
def endsValue (stop : Char → Bool) (s : Text) : Bool := s.head?.all stop

/-- A value is taken in front of any rest that ends it, if no stop can belong to a Twig
opener. -/
theorem valueOnto_rest (hstop : ∀ c, stop c = true → isTwigSecond c = false) {s a b : Text}
    (h : valueOnto stop seen s = .ok (a, b)) :
    ∃ m, a = seen.reverse ++ m ∧ s = m ++ b ∧ endsValue stop b = true ∧
      ∀ seen' b', endsValue stop b' = true →
        valueOnto stop seen' (m ++ b') = .ok (seen'.reverse ++ m, b') := by
  have hempty (seen' b' : Text) (hb : endsValue stop b' = true) :
      valueOnto stop seen' b' = .ok (seen'.reverse, b') := by
    cases b' with
    | nil => rw [valueOnto]
    | cons c r =>
      have hc : stop c = true := by simpa [endsValue] using hb
      have hne : c ≠ '{' := by
        rintro rfl
        exact absurd (hstop _ hc) (by decide)
      exact valueOnto_stopped (twig?_of_ne_brace hne) hc
  fun_induction valueOnto stop seen s with
  | case1 seen =>
    simp only [Except.ok.injEq, Prod.mk.injEq] at h
    obtain ⟨rfl, rfl⟩ := h
    exact ⟨[], by simp, rfl, rfl, fun seen' b' hb => by simpa using hempty seen' b' hb⟩
  | case2 => simp at h
  | case3 seen c r v ht text rest hv ih =>
    obtain ⟨m, rfl, rfl, hb, hrest⟩ := ih h
    refine ⟨text ++ m, by simp, by rw [List.append_assoc, Verbatim.take_append hv], hb,
      fun seen' b' hb' => ?_⟩
    rw [List.append_assoc, valueOnto_twig (twig?_rest ht hv _)
      (Verbatim.take_rest (twig?_stop ht) hv _), hrest _ _ hb']
    simp
  | case4 seen c r ht hc =>
    simp only [Except.ok.injEq, Prod.mk.injEq] at h
    obtain ⟨rfl, rfl⟩ := h
    refine ⟨[], by simp, rfl, by simpa [endsValue] using hc, fun seen' b' hb => ?_⟩
    simpa using hempty seen' b' hb
  | case5 seen c r ht hc ih =>
    obtain ⟨m, rfl, rfl, hb, hrest⟩ := ih h
    refine ⟨c :: m, by simp, rfl, hb, fun seen' b' hb' => ?_⟩
    -- the next character decides: another text behind the value does not make `c` open a construct
    have ht' : twig? (c :: (m ++ b')) = none := by
      cases m with
      | nil =>
        apply twig?_cons_of_not_second
        cases b' with
        | nil => rfl
        | cons d r' => simpa using hstop d (by simpa [endsValue] using hb')
      | cons d m' => rw [← ht]; exact twig?_cons_cons c d _ _
    rw [List.cons_append, valueOnto_char ht' (by simpa using hc), hrest _ _ hb']
    simp

/-- Whether a text is a value as a whole. -/
def IsValue (stop : Char → Bool) (v : Text) : Prop := value stop v = .ok (v, [])

theorem value_sound (hstop : ∀ c, stop c = true → isTwigSecond c = false) {s a b : Text}
    (h : value stop s = .ok (a, b)) : IsValue stop a ∧ endsValue stop b = true := by
  obtain ⟨m, rfl, -, hb, hrest⟩ := valueOnto_rest hstop h
  have hm := hrest [] [] rfl
  rw [List.append_nil] at hm
  exact ⟨hm, hb⟩

theorem value_rest (hstop : ∀ c, stop c = true → isTwigSecond c = false) {v b : Text}
    (hv : IsValue stop v) (hb : endsValue stop b = true) : value stop (v ++ b) = .ok (v, b) := by
  obtain ⟨m, hm, -, -, hrest⟩ := valueOnto_rest hstop hv
  rw [List.reverse_nil, List.nil_append] at hm
  subst hm
  exact hrest [] b hb

/-- A value does not begin with a stop, nor go on behind one outside a Twig construct. -/
theorem IsValue.head_not_stop {c : Char} {v : Text} (ht : twig? (c :: v) = none)
    (hv : IsValue stop (c :: v)) : stop c = false := by
  cases hc : stop c with
  | false => rfl
  | true =>
    rw [IsValue, value, valueOnto_stopped ht hc] at hv
    simp at hv

theorem valueOnto_whole_iff {v : Text} (hv : ∀ c ∈ v, c ≠ '{') :
    valueOnto stop seen v = .ok (seen.reverse ++ v, []) ↔ ∀ c ∈ v, stop c = false := by
  induction v generalizing seen with
  | nil => simp [valueOnto]
  | cons c v ih =>
    obtain ⟨hc, hv⟩ := List.forall_mem_cons.mp hv
    have ht : twig? (c :: v) = none := twig?_of_ne_brace hc
    have hmoved : seen.reverse ++ c :: v = (c :: seen).reverse ++ v := by simp
    rw [List.forall_mem_cons]
    cases hs : stop c with
    | true => simp [valueOnto_stopped ht hs]
    | false => rw [valueOnto_char ht hs, hmoved, ih hv]; simp

theorem isValue_iff_of_ne_brace {v : Text} (hv : ∀ c ∈ v, c ≠ '{') :
    IsValue stop v ↔ ∀ c ∈ v, stop c = false := by
  simpa [IsValue, value] using @valueOnto_whole_iff stop [] v hv

end Values

theorem quoted_sound {mark : Char} (hmark : isTwigSecond mark = false) {u : Cut}
    {s inner rest : Text} (h : quoted mark u s = .ok (inner, rest)) :
    IsValue (· == mark) inner := by
  unfold quoted at h
  split at h
  · cases h
  · cases h
  · rename_i hv
    simp only [Except.ok.injEq, Prod.mk.injEq] at h
    obtain ⟨rfl, -⟩ := h
    exact (value_sound (by simp_all) hv).1

theorem quoted_rest {mark : Char} (hmark : isTwigSecond mark = false) {inner : Text}
    (h : IsValue (· == mark) inner) (u : Cut) (rest : Text) :
    quoted mark u (inner ++ mark :: rest) = .ok (inner, rest) := by
  have hv : value (· == mark) (inner ++ mark :: rest) = .ok (inner, mark :: rest) :=
    value_rest (by simp_all) h (by simp [endsValue])
  simp [quoted, hv]

end Markup

end ExtensionAudit
