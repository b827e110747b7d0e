import ExtensionAudit.Proofs.Results
import ExtensionAudit.Proofs.Version.Ranges
import ExtensionAudit.Proofs.Version.Readings
import Mathlib.Data.List.Forall2
import Mathlib.Data.List.Induction
/-
  The texts of operands. An operand is made of digits, letters, dots, hyphens and
  stars, so it holds no blank, no separator and no operator; it begins with a digit
  or its mark. Its parts are the numbers in front of the first wildcard, whatever
  zeros stand in front of each, and what it says of stability its suffix says.

  Main statements: `Operand.parse_eq_ok_iff_isWritten`, `Operand.formed_of_parse`,
  `Spelling.read?_sound` and `Spelling.getLast?_of_read?`.
-/

namespace ExtensionAudit

/-- The characters that an operand is made of. -/
def isOperandChar (c : Char) : Bool :=
  isDecimal c || c.isAlpha || c = '.' || c = '-' || c = '*'

/-- The characters that segments and stability suffixes are made of: a hyphen stands only between
the two. -/
def isSegmentChar (c : Char) : Bool := isDecimal c || c.isAlpha || c = '.' || c = '*'

theorem isOperandChar_of_isSegmentChar {c : Char} (h : isSegmentChar c = true) :
    isOperandChar c = true := by
  simp only [isSegmentChar, Bool.or_eq_true] at h
  simp only [isOperandChar, Bool.or_eq_true]
  rcases h with (h | h) | h
  · exact .inl (.inl (.inl h))
  · exact .inl (.inl (.inr h))
  · exact .inr h

theorem isBlank_of_isDecimal {c : Char} (h : isDecimal c = true) : isBlank c = false := by
  have hblanks : ∀ n ∈ [9, 10, 11, 12, 13, 0x20, 0x85, 0xA0, 0x1680, 0x2000, 0x2001, 0x2002, 0x2003,
      0x2004, 0x2005, 0x2006, 0x2007, 0x2008, 0x2009, 0x200A, 0x2028, 0x2029, 0x202F, 0x205F, 0x3000],
      decimalZeros.any (fun z => z ≤ n && n ≤ z + 9) = false := by decide
  rw [← Bool.not_eq_true]
  intro hblank
  have hmem := hblanks c.toNat (by
    simp only [isBlank, Bool.or_eq_true, Bool.and_eq_true, decide_eq_true_eq, beq_iff_eq] at hblank
    simp only [List.mem_cons, List.not_mem_nil, or_false]
    omega)
  rw [isDecimal, hmem] at h
  cases h

theorem isBlank_of_isAlpha {c : Char} (h : c.isAlpha = true) : isBlank c = false := by
  have hrange := toNat_of_isAlpha h
  simp only [isBlank, Bool.or_eq_false_iff, Bool.and_eq_false_iff, decide_eq_false_iff_not,
    beq_eq_false_iff_ne]
  omega

/-- An operand holds no blank and nothing that separates terms, alternatives or flags. -/
theorem isOperandChar_apart {c : Char} (h : isOperandChar c = true) :
    isBlank c = false ∧ c ≠ ',' ∧ c ≠ '|' ∧ c ≠ '@' := by
  refine ⟨?_, ?_, ?_, ?_⟩
  · simp only [isOperandChar, Bool.or_eq_true, decide_eq_true_eq] at h
    rcases h with (((h | h) | rfl) | rfl) | rfl
    · exact isBlank_of_isDecimal h
    · exact isBlank_of_isAlpha h
    all_goals decide
  all_goals
    rintro rfl
    revert h
    decide

/-! ## The characters of a written text -/

theorem isSegmentChar_of_isDecimal {c : Char} (h : isDecimal c = true) :
    isSegmentChar c = true := by
  simp [isSegmentChar, h]

theorem Segment.IsWritten.chars {wildcards : Bool} {segment : Segment} {t : Text}
    (h : segment.IsWritten wildcards t) : ∀ c ∈ t, isSegmentChar c = true := by
  cases h with
  | digits _ hrun => exact fun c hc => isSegmentChar_of_isDecimal (hrun c hc)
  | wildcard _ hc =>
    simp only [List.mem_singleton, forall_eq]
    rcases hc with rfl | rfl | rfl <;> decide

theorem Segment.AreWritten.chars {wildcards : Bool} {segments : List Segment} {t : Text}
    (h : Segment.AreWritten wildcards segments t) : ∀ c ∈ t, isSegmentChar c = true := by
  induction h with
  | nil => simp
  | cons hsegment _ ih =>
    refine List.forall_mem_cons.mpr ⟨by decide, fun c hc => ?_⟩
    exact (List.mem_append.mp hc).elim (hsegment.chars c) (ih c)

theorem Suffix.IsBody.chars {x : Suffix} {s : Text} (h : x.IsBody s) :
    s ≠ [] ∧ ∀ c ∈ s, isSegmentChar c = true := by
  obtain ⟨c, word, tail, rfl, hletters, -, -, htail⟩ := h.letters
  obtain ⟨dot, rfl, hdot, hdigits⟩ := Spelling.suffixDigits?_eq_some_iff.mp htail
  refine ⟨List.cons_ne_nil _ _, fun a ha => ?_⟩
  rcases List.mem_append.mp ha with ha | ha
  · simp [isSegmentChar, hletters a ha]
  · rcases List.mem_append.mp ha with ha | ha
    · rcases hdot with rfl | rfl
      · cases ha
      · obtain rfl := List.mem_singleton.mp ha
        decide
    · cases hrun : x.digits with
      | none =>
        rw [hrun] at ha
        cases ha
      | some run =>
        rw [hrun] at ha
        exact isSegmentChar_of_isDecimal ((hdigits run hrun).2 a ha)

namespace Spelling

variable {wildcards : Bool} {s : Text} {x : Spelling}

/-- A written text ends with something that a segment or a suffix is made of; a hyphen can stand in
front of that, and a mark at the beginning. -/
theorem IsWritten.exists_end (h : x.IsWritten wildcards s) : ∃ front body, s = front ++ body ∧
    (∀ c ∈ front, isOperandChar c = true) ∧ body ≠ [] ∧ ∀ c ∈ body, isSegmentChar c = true := by
  obtain ⟨mark, run, segments, more, back, rfl, hmark, -, hne, hrun, -, hmore, hback⟩ := h
  have hfront : ∀ c ∈ mark, isOperandChar c = true :=
    forall_mem_of_optional hmark (by decide) (by decide)
  have hsegments : ∀ c ∈ run ++ more, isSegmentChar c = true := fun c hc =>
    (List.mem_append.mp hc).elim (fun hc => isSegmentChar_of_isDecimal (hrun c hc)) (hmore.chars c)
  generalize x.suffix = suffix at hback
  cases hback with
  | nothing => exact ⟨mark, run ++ more, by simp, hfront, by simp [hne], hsegments⟩
  | suffix hsuffix =>
    obtain ⟨sep, body, rfl, hsep, hbody⟩ := hsuffix
    obtain ⟨hbodyne, hchars⟩ := hbody.chars
    have hsep : ∀ c ∈ sep, isOperandChar c = true :=
      forall_mem_of_optional hsep (by decide) (by decide)
    refine ⟨mark ++ (run ++ more) ++ sep, body, by simp, fun c hc => ?_, hbodyne, hchars⟩
    rcases List.mem_append.mp hc with hc | hc
    · exact (List.mem_append.mp hc).elim (hfront c) fun hc =>
        isOperandChar_of_isSegmentChar (hsegments c hc)
    · exact hsep c hc

/-- The text of a version or an operand begins with a digit or its mark, and is made of operand
characters. -/
theorem read?_sound (h : read? wildcards s = some x) :
    (∃ c r, s = c :: r ∧ (isDecimal c = true ∨ c = 'v' ∨ c = 'V')) ∧
      ∀ c ∈ s, isOperandChar c = true := by
  have hwritten := read?_eq_some_iff.mp h
  constructor
  · obtain ⟨mark, run, segments, more, back, rfl, hmark, -, hne, hrun, -⟩ := hwritten
    rcases hmark with rfl | rfl | rfl
    · -- without a mark the digits begin the text
      obtain ⟨d, run, rfl⟩ := List.exists_cons_of_ne_nil hne
      exact ⟨d, _, rfl, .inl (hrun d List.mem_cons_self)⟩
    · exact ⟨'v', _, rfl, .inr (.inl rfl)⟩
    · exact ⟨'V', _, rfl, .inr (.inr rfl)⟩
  · obtain ⟨front, body, rfl, hfront, -, hbody⟩ := hwritten.exists_end
    exact fun c hc => (List.mem_append.mp hc).elim (hfront c) fun hc =>
      isOperandChar_of_isSegmentChar (hbody c hc)

/-- The text of a version or an operand does not end with a hyphen. -/
theorem getLast?_of_read? (h : read? wildcards s = some x) :
    s.getLast?.any isSegmentChar = true := by
  obtain ⟨front, body, rfl, -, hne, hbody⟩ := (read?_eq_some_iff.mp h).exists_end
  rw [List.getLast?_append, List.getLast?_eq_some_getLast hne]
  exact hbody _ (List.getLast_mem hne)

end Spelling

/-! ## The values of a written text -/

/-- A number is written in decimal, behind any zeros. -/
def IsNumeral (run : Text) (n : Nat) : Prop :=
  n < segmentLimit ∧ ∃ zeros, run = List.replicate zeros '0' ++ Nat.toDigits 10 n

theorem decimalValue_eq (run : Text) : decimalValue run = Nat.ofDigitChars 10 run 0 :=
  Nat.ofDigitChars_eq_foldl.symm

theorem toDigits_digitValue {c : Char} (hc : c.isDigit = true) :
    digitValue c < 10 ∧ Nat.toDigits 10 (digitValue c) = [c] := by
  have hchars : ∀ n ∈ List.range' 48 10, (n - 48).digitChar = Char.ofNat n := by decide
  have hrange : 48 ≤ c.toNat ∧ c.toNat ≤ 57 := by
    simp only [Char.isDigit, Bool.and_eq_true, decide_eq_true_eq] at hc
    exact ⟨hc.1, hc.2⟩
  have hlt : digitValue c < 10 := by
    show c.toNat - 48 < 10
    omega
  refine ⟨hlt, ?_⟩
  rw [Nat.toDigits_of_lt_base hlt]
  have hchar := hchars c.toNat (List.mem_range'_1.mpr (by omega))
  rw [Char.ofNat_toNat] at hchar
  exact congrArg ([·]) hchar

theorem exists_zeros {run : Text} (hne : run ≠ []) (hrun : ∀ c ∈ run, c.isDigit = true) :
    ∃ zeros, run = List.replicate zeros '0' ++ Nat.toDigits 10 (decimalValue run) := by
  -- on the digits in front of the last one
  induction run using List.reverseRecOn with
  | nil => exact absurd rfl hne
  | append_singleton front c ih =>
    have hdigit := toDigits_digitValue (hrun c (by simp))
    have hvalue : decimalValue (front ++ [c]) = 10 * decimalValue front + digitValue c := by
      simp [decimalValue]
    rcases List.eq_nil_or_concat front with rfl | ⟨front', c', hfront⟩
    · exact ⟨0, by simp [decimalValue, hdigit.2]⟩
    obtain ⟨zeros, hzeros⟩ := ih (by simp [hfront]) fun a ha => hrun a (by simp [ha])
    rw [hvalue]
    -- in front of the last digit stand zeros alone, or a number that it is appended to
    by_cases hzero : decimalValue front = 0
    · refine ⟨zeros + 1, ?_⟩
      rw [hzero, Nat.mul_zero, Nat.zero_add, hdigit.2, List.replicate_succ']
      rw [hzero] at hzeros
      exact congrArg (· ++ [c]) hzeros
    · refine ⟨zeros, ?_⟩
      rw [← Nat.toDigits_append_toDigits (by decide) (Nat.pos_of_ne_zero hzero) hdigit.1, hdigit.2,
        ← List.append_assoc, ← hzeros]

theorem segment?_eq_some_iff {run : Text} {n : Nat} : segment? run = some n ↔ IsNumeral run n := by
  constructor
  · intro h
    have hlimit := segment?_lt h
    unfold segment? at h
    split at h
    · cases h
    · rename_i hdigits
      simp only [Bool.or_eq_true, Bool.not_eq_true', not_or, Bool.not_eq_false,
        List.isEmpty_iff] at hdigits
      obtain rfl : decimalValue run = n := Option.some.inj (Option.ite_none_right_eq_some.mp h).2
      exact ⟨hlimit, exists_zeros hdigits.1 (List.all_eq_true.mp hdigits.2)⟩
  · rintro ⟨hlimit, zeros, rfl⟩
    have hvalue : decimalValue (List.replicate zeros '0' ++ Nat.toDigits 10 n) = n := by
      rw [decimalValue_eq, Nat.ofDigitChars_append, Nat.ofDigitChars_replicate_zero, Nat.mul_zero,
        Nat.ofDigitChars_ten_toDigits]
    have hdigits : (List.replicate zeros '0' ++ Nat.toDigits 10 n).all Char.isDigit = true := by
      rw [List.all_append, Bool.and_eq_true, List.all_eq_true, List.all_eq_true]
      refine ⟨fun c hc => ?_, fun c hc => Nat.isDigit_of_mem_toDigits (by decide) (by decide) hc⟩
      rw [(List.mem_replicate.mp hc).2]
      decide
    simp [segment?, hdigits, hvalue, hlimit]

namespace Operand

variable {s : Text} {x : Operand}

/-- The parts are the numbers in front of the first wildcard; what stands behind it does not
count. -/
theorem partsOf_eq_ok_iff {segments : List Segment} {parts : List Nat} {wildcard : Bool} :
    partsOf segments = .ok (parts, wildcard) ↔ ∃ runs rest,
      segments = runs.map .digits ++ rest ∧ List.Forall₂ IsNumeral runs parts ∧
      rest.head? = if wildcard then some .wildcard else none := by
  -- on the segments; a wildcard ends the numbers
  induction segments generalizing parts with
  | nil =>
    constructor
    · intro h
      cases h
      exact ⟨[], [], rfl, .nil, rfl⟩
    · rintro ⟨runs, rest, hsegments, hruns, hrest⟩
      obtain ⟨hnil, rfl⟩ := List.append_eq_nil_iff.mp hsegments.symm
      obtain rfl := List.map_eq_nil_iff.mp hnil
      cases hruns
      cases wildcard with
      | true => cases hrest
      | false => rfl
  | cons segment segments ih =>
    cases segment with
    | wildcard =>
      constructor
      · intro h
        cases h
        exact ⟨[], _, rfl, .nil, rfl⟩
      · rintro ⟨runs, rest, hsegments, hruns, hrest⟩
        cases hruns with
        | nil =>
          obtain rfl : _ = rest := hsegments
          cases wildcard with
          | true => rfl
          | false => cases hrest
        | cons => cases hsegments
    | digits run =>
      constructor
      · intro h
        cases hrun : segment? run with
        | none => simp [partsOf, hrun] at h
        | some n =>
          simp only [partsOf, hrun] at h
          obtain ⟨⟨ns, more⟩, hmore, hsame⟩ := exists_of_map_eq_ok h
          obtain ⟨rfl, rfl⟩ := Prod.mk.inj hsame
          obtain ⟨runs, rest, rfl, hruns, hrest⟩ := ih.mp hmore
          exact ⟨run :: runs, rest, rfl, .cons (segment?_eq_some_iff.mp hrun) hruns, hrest⟩
      · rintro ⟨runs, rest, hsegments, hruns, hrest⟩
        cases hruns with
        | nil =>
          obtain rfl : _ = rest := hsegments
          cases wildcard <;> cases hrest
        | @cons run' n runs ns hrun hruns =>
          obtain ⟨hsame, hbehind⟩ := List.cons.inj hsegments
          obtain rfl := Segment.digits.inj hsame
          have hmore := ih.mpr ⟨runs, rest, hbehind, hruns, hrest⟩
          simp only [partsOf, segment?_eq_some_iff.mpr hrun, hmore]
          rfl

/-- How an operand is written: its spelling has a numeral for each part, behind these a wildcard if
the operand has one, and a suffix for its stability. -/
def IsWritten (x : Operand) (s : Text) : Prop :=
  ∃ spelling : Spelling, spelling.IsWritten true s ∧ spelling.stability? = some x.stability ∧
    ∃ runs rest, spelling.segments = runs.map .digits ++ rest ∧
      List.Forall₂ IsNumeral runs x.parts ∧
      rest.head? = if x.wildcard then some .wildcard else none

/-- A text is read as the operand that it writes. -/
theorem parse_eq_ok_iff_isWritten : parse s = .ok x ↔ x.IsWritten s := by
  unfold IsWritten
  simp only [parse_eq_ok_iff, Spelling.read?_eq_some_iff, partsOf_eq_ok_iff]
  exact exists_congr fun _ => and_congr_right fun _ => and_comm

theorem stability_of_parse (h : parse s = .ok x) {stability : Stability} {n : Nat}
    (hx : x.stability = some (stability, n)) : stability ≠ .stable := by
  obtain ⟨spelling, hwritten, hstability, -⟩ := parse_eq_ok_iff_isWritten.mp h
  obtain ⟨mark, run, segments, more, back, -, -, -, -, -, -, -, hback⟩ := hwritten
  rw [hx, Spelling.stability?] at hstability
  generalize spelling.suffix = suffix at hback hstability
  cases hback with
  | nothing => cases hstability
  | @suffix written _ hwritten =>
    obtain ⟨-, body, -, -, hbody⟩ := hwritten
    obtain ⟨-, -, -, -, -, -, ⟨w, hw, -, hword⟩, -⟩ := hbody.letters
    have hpre : written.stability ≠ .stable := hword ▸ (Spelling.of_mem_suffixWords hw).2.2.2
    obtain ⟨written, digits⟩ := written
    cases digits with
    | none =>
      cases hstability
      exact hpre
    | some run =>
      obtain ⟨_, hvalue, ⟨⟩⟩ := Option.map_eq_some_iff.mp hstability
      obtain ⟨_, -, ⟨⟩⟩ := Option.map_eq_some_iff.mp hvalue
      exact hpre

/-- An operand that is read has one to four parts, and each fits a segment. -/
theorem formed_of_parse (h : parse s = .ok x) : x.Formed := by
  obtain ⟨spelling, hwritten, -, runs, rest, hruns, hparts, hrest⟩ := parse_eq_ok_iff_isWritten.mp h
  obtain ⟨mark, run, segments, more, back, -, -, hsegments, -, -, hlength, -, -⟩ := hwritten
  have hall := congrArg List.length (hsegments.symm.trans hruns)
  rw [List.length_cons, List.length_append, List.length_map, hparts.length_eq] at hall
  refine ⟨fun hnil => ?_, by omega, fun n hn => ?_⟩
  · -- the first segment is not a wildcard, so it is a part
    rw [hnil] at hparts
    cases hparts
    rw [hsegments] at hruns
    obtain rfl : _ = rest := hruns
    cases hwildcard : x.wildcard <;> simp [hwildcard] at hrest
  · obtain ⟨i, hi, rfl⟩ := List.mem_iff_getElem.mp hn
    exact (hparts.get (by rwa [hparts.length_eq]) hi).1

end Operand

end ExtensionAudit
