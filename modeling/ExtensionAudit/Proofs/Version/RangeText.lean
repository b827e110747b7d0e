import ExtensionAudit.Proofs.Version.OperandText
import ExtensionAudit.Proofs.Version.SingleTerm
/-
  Ranges as they are written. A wildcard, a tilde or a caret range admits the
  versions that begin with certain parts of its operand, a hyphen range those up to
  its upper end; the text of one is refused only when the part that bounds it cannot
  be incremented.

  Main statement: `Constraint.parse_range`.
-/

namespace ExtensionAudit

/-- A range with its operands: all versions of a series (`6.5.*`), a tilde range, a caret range, or
a hyphen range. -/
inductive Range where
  | series (x : Operand)
  | tilde (x : Operand)
  | caret (x : Operand)
  | between (low high : Operand)

namespace Range

/-- Whether a hyphen range goes on as far as versions begin with its upper end. -/
def IsOpenEnd (high : Operand) : Prop := high.parts.length < 3 ∨ high.wildcard = true

instance (high : Operand) : Decidable (IsOpenEnd high) :=
  inferInstanceAs (Decidable (high.parts.length < 3 ∨ high.wildcard = true))

/-- The parts that bound a range from above, the last of which is incremented to find its end. A
hyphen range that ends with an exact version has none. -/
def bounding : Range → List Nat
  | .series x => x.parts
  | .tilde x => x.parts.take (max (x.parts.length - 1) 1)
  | .caret x => x.parts.take (min (x.parts.takeWhile (· == 0)).length (x.parts.length - 1) + 1)
  | .between _ high => if IsOpenEnd high then high.parts else []

/-- Whether a range stands for a version. Segments are compared from the first one on. -/
def Contains : Range → Version → Prop
  | .series x, v => x.parts <+: v.segments
  | .tilde x, v => x.floor ≤ v ∧ (tilde x).bounding <+: v.segments
  | .caret x, v => x.floor ≤ v ∧ (caret x).bounding <+: v.segments
  | .between low high, v => low.floor ≤ v ∧
      if IsOpenEnd high then ¬ high.parts < v.segments.take high.parts.length else v ≤ high.exact

instance (r : Range) (v : Version) : Decidable (r.Contains v) :=
  match r with
  | .series _ => inferInstanceAs (Decidable (_ <+: _))
  | .tilde _ => inferInstanceAs (Decidable (_ ∧ _))
  | .caret _ => inferInstanceAs (Decidable (_ ∧ _))
  | .between _ _ => inferInstanceAs (Decidable (_ ∧ _))

/-- How a range is written: the operand of a series without a stability, a sign and an operand, or
two operands with a hyphen between blanks. How an operand is written says `Operand.IsWritten`, by
`Operand.parse_eq_ok_iff_isWritten`. -/
inductive Written : Range → Text → Prop
  | series {x : Operand} {s : Text} (hx : Operand.parse s = .ok x) (hwildcard : x.wildcard = true)
      (hstability : x.stability = none) : Written (.series x) s
  | tilde {x : Operand} {gap s : Text} (hx : Operand.parse s = .ok x)
      (hgap : ∀ c ∈ gap, isBlank c = true) : Written (.tilde x) ('~' :: (gap ++ s))
  | caret {x : Operand} {gap s : Text} (hx : Operand.parse s = .ok x)
      (hgap : ∀ c ∈ gap, isBlank c = true) : Written (.caret x) ('^' :: (gap ++ s))
  | between {low high : Operand} {s gap gap' t : Text} (hlow : Operand.parse s = .ok low)
      (hhigh : Operand.parse t = .ok high) (hgap : ∀ c ∈ gap ++ gap', isBlank c = true)
      (hne : gap ≠ [] ∧ gap' ≠ []) : Written (.between low high) (s ++ (gap ++ '-' :: (gap' ++ t)))

end Range

/-! ## Operands in terms -/

namespace Operand

variable {s : Text} {x : Operand}

theorem apart_of_parse (h : parse s = .ok x) :
    ∀ c ∈ s, isBlank c = false ∧ c ≠ ',' ∧ c ≠ '|' ∧ c ≠ '@' := by
  obtain ⟨spelling, hread, -⟩ := parse_eq_ok_iff.mp h
  obtain ⟨-, hchars⟩ := Spelling.read?_sound hread
  exact fun c hc => isOperandChar_apart (hchars c hc)

theorem ne_nil_of_parse (h : parse s = .ok x) : s ≠ [] := by
  obtain ⟨spelling, hread, -⟩ := parse_eq_ok_iff.mp h
  obtain ⟨⟨c, r, rfl, -⟩, -⟩ := Spelling.read?_sound hread
  exact List.cons_ne_nil c r

theorem split_of_parse (h : parse s = .ok x) :
    Operator.split s = (.equal, s) ∧ s ≠ ['*'] ∧ s ≠ ['x'] ∧ s ≠ ['X'] := by
  obtain ⟨spelling, hread, -⟩ := parse_eq_ok_iff.mp h
  obtain ⟨⟨c, r, rfl, hc⟩, -⟩ := Spelling.read?_sound hread
  have hnone : ['>', '<', '!', '=', '~', '^', '*', 'x', 'X'].all
      (fun d => ¬ (isDecimal d = true ∨ d = 'v' ∨ d = 'V')) = true := by decide
  have hsign : ∀ d ∈ ['>', '<', '!', '=', '~', '^', '*', 'x', 'X'], c ≠ d := by
    rintro d hd rfl
    exact of_decide_eq_true (List.all_eq_true.mp hnone c hd) hc
  simp only [List.mem_cons, List.not_mem_nil, or_false, forall_eq_or_imp, forall_eq] at hsign
  refine ⟨?_, ?_⟩
  · unfold Operator.split
    split <;> simp_all
  · simp [hsign]

end Operand

namespace Constraint

theorem parseTerm_of_split {term s : Text} {op : Operator} {x : Operand}
    (hflag : ∀ c ∈ term, c ≠ '@')
    (hne : term ≠ [] ∧ term ≠ ['*'] ∧ term ≠ ['x'] ∧ term ≠ ['X'])
    (hsplit : Operator.split term = (op, s)) (h : Operand.parse s = .ok x) :
    parseTerm term = op.term x := by
  obtain ⟨hempty, hstar, hx, hX⟩ := hne
  have hlone : (term.isEmpty || decide (term = ['*']) || decide (term = ['x']) ||
      decide (term = ['X'])) = false := by simp [hempty, hstar, hx, hX]
  simp only [parseTerm, dropFlag_of_no_flag hflag, hlone, hsplit, h, Bool.false_eq_true, if_false]
  rfl

theorem admits_single (t : Term) (text : String) (v : Version) :
    Constraint.admits ⟨[[t]], text⟩ v = t.admits v := by
  simp [admits, groupAdmits]

theorem parseHyphen_eq {p q : Text} {low high : Operand} (hlow : Operand.parse p = .ok low)
    (hhigh : Operand.parse q = .ok high) :
    parseHyphen p q =
      if Range.IsOpenEnd high then (high.next (high.parts.length - 1)).map fun upper =>
        .range (.inclusive low.floor) (.exclusive upper)
      else .ok (.range (.inclusive low.floor) (.inclusive high.exact)) := by
  unfold parseHyphen
  rw [hlow, hhigh]
  show (if (decide (high.parts.length < 3) || high.wildcard) = true then _ else _) = _
  have hopen : (decide (high.parts.length < 3) || high.wildcard) = true ↔ Range.IsOpenEnd high := by
    simp [Range.IsOpenEnd]
  by_cases h : Range.IsOpenEnd high
  · rw [if_pos h, if_pos (hopen.mpr h)]
    cases high.next (high.parts.length - 1) <;> rfl
  · rw [if_neg h, if_neg fun h' => h (hopen.mp h')]
    rfl

section Ranges

variable {s : String} {front back : Text} (hblank : ∀ c ∈ front ++ back, isBlank c = true)

include hblank

theorem parse_upToNext {sign gap p : Text} {x : Operand} {index : Nat}
    (hs : s.toList = front ++ (sign ++ (gap ++ p)) ++ back)
    (hsign : ∀ c ∈ sign, isOperatorEnd c = true) (hgap : ∀ c ∈ gap, isBlank c = true)
    (hjoin : sign = [] → gap = []) (hx : Operand.parse p = .ok x)
    (hterm : parseTerm (sign ++ p) = x.upToNext index) :
    Increments (x.parts.take (index + 1)) (parse s) fun c => ∀ v : Version,
      c.admits v = true ↔ x.floor ≤ v ∧ x.parts.take (index + 1) <+: v.segments := by
  have hop : ∀ c ∈ p, isBlank c = false ∧ c ≠ ',' ∧ c ≠ '|' := by
    intro c hc
    obtain ⟨hblank, hcomma, hbar, -⟩ := Operand.apart_of_parse hx c hc
    exact ⟨hblank, hcomma, hbar⟩
  rw [parse_term hsign hgap hjoin hop hs hblank (Operand.ne_nil_of_parse hx), hterm]
  refine (Operand.upToNext_increments (Operand.formed_of_parse hx) index).map fun t ht v => ?_
  rw [admits_single]
  exact ht v

/-- An operand with a wildcard stands for the versions that begin with its parts, pre-releases
included. -/
theorem parse_series {p : Text} {x : Operand} (hs : s.toList = front ++ p ++ back)
    (hx : Operand.parse p = .ok x) (hwildcard : x.wildcard = true)
    (hstability : x.stability = none) :
    Increments x.parts (parse s) fun c => ∀ v : Version,
      c.admits v = true ↔ x.parts <+: v.segments := by
  have hformed := Operand.formed_of_parse hx
  obtain ⟨hsplit, hlone⟩ := Operand.split_of_parse hx
  have hterm : parseTerm p = x.upToNext (x.parts.length - 1) := by
    rw [parseTerm_of_split (fun c hc => (Operand.apart_of_parse hx c hc).2.2.2)
      ⟨Operand.ne_nil_of_parse hx, hlone⟩ hsplit hx]
    simp [Operator.term, hwildcard, hformed.ne_nil]
  have hall : x.parts.take (x.parts.length - 1 + 1) = x.parts := by
    rw [Nat.sub_add_cancel (List.length_pos_iff.mpr hformed.ne_nil), List.take_length]
  have hs : s.toList = front ++ ([] ++ ([] ++ p)) ++ back := hs
  have hparse := parse_upToNext hblank hs (by simp) (by simp) (fun _ => rfl) hx hterm
  rw [hall] at hparse
  refine ⟨hparse.1, fun hlast => ?_⟩
  obtain ⟨c, hc, hadmits⟩ := hparse.2 hlast
  refine ⟨c, hc, fun v => (hadmits v).trans ?_⟩
  exact and_iff_right_of_imp (Operand.floor_le_of_prefix hformed hstability)

theorem parse_signed {op : Operator} {sign : Char} {gap p : Text} {x : Operand} {index : Nat}
    (hs : s.toList = front ++ (sign :: (gap ++ p)) ++ back)
    (hsign : isOperatorEnd sign = true) (hgap : ∀ c ∈ gap, isBlank c = true)
    (hx : Operand.parse p = .ok x) (hsplit : Operator.split (sign :: p) = (op, p))
    (hterm : op.term x = x.upToNext index) :
    Increments (x.parts.take (index + 1)) (parse s) fun c => ∀ v : Version,
      c.admits v = true ↔ x.floor ≤ v ∧ x.parts.take (index + 1) <+: v.segments := by
  have hs : s.toList = front ++ ([sign] ++ (gap ++ p)) ++ back := hs
  refine parse_upToNext hblank hs (by simpa using hsign) hgap (fun h => nomatch h) hx ?_
  have hne : sign ≠ '@' := by
    rintro rfl
    exact absurd hsign (by decide)
  have hflag : ∀ c ∈ sign :: p, c ≠ '@' :=
    List.forall_mem_cons.mpr ⟨hne, fun c hc => (Operand.apart_of_parse hx c hc).2.2.2⟩
  rw [List.singleton_append, parseTerm_of_split hflag ?_ hsplit hx, hterm]
  have hp := Operand.ne_nil_of_parse hx
  simp [hp]

/-- A hyphen range ends with an exact version, or with the versions that begin with its upper
end. -/
theorem parse_between {low high : Operand} {p gap gap' q : Text}
    (hs : s.toList = front ++ (p ++ (gap ++ '-' :: (gap' ++ q))) ++ back)
    (hlow : Operand.parse p = .ok low) (hhigh : Operand.parse q = .ok high)
    (hgap : ∀ c ∈ gap ++ gap', isBlank c = true) (hne : gap ≠ [] ∧ gap' ≠ []) :
    Increments (Range.between low high).bounding (parse s) fun c => ∀ v : Version,
      c.admits v = true ↔ (Range.between low high).Contains v := by
  have hop : ∀ c ∈ p ++ q, isBlank c = false ∧ c ≠ '|' := by
    intro c hc
    have hapart := (List.mem_append.mp hc).elim (Operand.apart_of_parse hlow c)
      (Operand.apart_of_parse hhigh c)
    exact ⟨hapart.1, hapart.2.2.1⟩
  rw [parse_hyphen hs hblank hgap hne hop
    ⟨Operand.ne_nil_of_parse hlow, Operand.ne_nil_of_parse hhigh⟩]
  rw [parseHyphen_eq hlow hhigh]
  simp only [Range.bounding, Range.Contains]
  split
  · -- an open end: the whole upper operand bounds the range
    have hformed := Operand.formed_of_parse hhigh
    have hnext := Operand.next_increments hformed (high.parts.length - 1)
    rw [Nat.sub_add_cancel (List.length_pos_iff.mpr hformed.ne_nil), List.take_length] at hnext
    have hterm : Increments high.parts ((high.next (high.parts.length - 1)).map fun upper =>
        Term.range (.inclusive low.floor) (.exclusive upper)) fun t => ∀ v : Version,
          t.admits v = true ↔
            low.floor ≤ v ∧ ¬ high.parts < v.segments.take high.parts.length := by
      refine hnext.map fun upper hupper v => ?_
      simp [Term.admits, Term.above, Term.below, hupper]
    refine hterm.map fun t ht v => ?_
    rw [admits_single]
    exact ht v
  · constructor
    · intro hlast
      cases hlast
    · refine fun _ => ⟨_, rfl, fun v => ?_⟩
      rw [admits_single]
      simp [Term.admits, Term.above, Term.below]

theorem parse_increments {r : Range} {text : Text} (hs : s.toList = front ++ text ++ back)
    (h : r.Written text) :
    Increments r.bounding (parse s) fun c => ∀ v : Version,
      c.admits v = true ↔ r.Contains v := by
  cases h with
  | series hx hwildcard hstability => exact parse_series hblank hs hx hwildcard hstability
  | @tilde x gap p hx hgap =>
    have hindex : x.tildeIndex + 1 = max (x.parts.length - 1) 1 := by
      rw [Operand.tildeIndex]
      omega
    have hparse := parse_signed hblank hs (by decide) hgap hx rfl rfl
    rw [hindex] at hparse
    exact hparse
  | @caret x gap p hx hgap =>
    have hparse := parse_signed hblank hs (by decide) hgap hx rfl rfl
    rw [Operand.caretIndex_eq] at hparse
    exact hparse
  | between hlow hhigh hgap hne => exact parse_between hblank hs hlow hhigh hgap hne

end Ranges

/-- The text of a range is refused, out of range, exactly when the last of the parts that bound it
is the greatest segment; otherwise it admits the versions that the range contains. -/
theorem parse_range {r : Range} {s : String} {front text back : Text}
    (hs : s.toList = front ++ text ++ back) (hblank : ∀ c ∈ front ++ back, isBlank c = true)
    (h : r.Written text) :
    (parse s = .error (.segmentOutOfRange (toString (segmentLimit - 1))) ↔
      r.bounding.getLast? = some (segmentLimit - 1)) ∧
    (r.bounding.getLast? ≠ some (segmentLimit - 1) →
      ∃ c, parse s = .ok c ∧ ∀ v, c.admits v = true ↔ r.Contains v) := by
  obtain ⟨hfails, hreads⟩ := parse_increments hblank hs h
  refine ⟨⟨fun herror => ?_, hfails⟩, hreads⟩
  by_cases hlast : r.bounding.getLast? = some (segmentLimit - 1)
  · exact hlast
  · obtain ⟨c, hc, -⟩ := hreads hlast
    rw [hc] at herror
    cases herror

/-- A caret range behind leading zeros, with a pre-release at either end, and a tilde range that
has no end. -/
theorem parse_range_of_extremes :
    let x : Operand := ⟨[0, 0, 3], false, some (.beta, 2)⟩
    let y : Operand := ⟨[segmentLimit - 1, 0], false, none⟩
    (Range.caret x).Written "^ v0.00.3-Beta.2".toList ∧
      (Range.tilde y).Written "~18446744073709551615.0".toList ∧
      (∃ c, parse " ^ v0.00.3-Beta.2 " = .ok c ∧ c.admits (.ofParts [0, 0, 3] .beta 1) = false ∧
        c.admits (.ofParts [0, 0, 3] .beta 2) = true ∧
        c.admits (.ofParts [0, 0, 3, segmentLimit - 1] .stable 0) = true ∧
        c.admits (.ofParts [0, 0, 4] .dev 0) = false) ∧
      parse "~18446744073709551615.0" = .error (.segmentOutOfRange (toString (segmentLimit - 1))) := by
  intro x y
  have hcaret : (Range.caret x).Written ('^' :: ([' '] ++ "v0.00.3-Beta.2".toList)) :=
    .caret (by rfl) (List.all_eq_true.mp (by decide))
  have htilde : (Range.tilde y).Written ('~' :: ([] ++ "18446744073709551615.0".toList)) :=
    .tilde (by rfl) (by simp)
  refine ⟨hcaret, htilde, ?_, ?_⟩
  · obtain ⟨-, hreads⟩ := @parse_range _ " ^ v0.00.3-Beta.2 " [' '] _ [' '] (by decide +kernel)
      (List.all_eq_true.mp (by decide)) hcaret
    obtain ⟨c, hc, hadmits⟩ := hreads (by decide)
    refine ⟨c, hc, ?_, (hadmits _).mpr (by decide), (hadmits _).mpr (by decide), ?_⟩
    · rw [← Bool.not_eq_true, hadmits]
      decide
    · rw [← Bool.not_eq_true, hadmits]
      decide
  · obtain ⟨hfails, -⟩ := @parse_range _ "~18446744073709551615.0" [] _ [] (by decide +kernel)
      (by simp) htilde
    exact hfails.mpr (by decide)

end Constraint

end ExtensionAudit
