import ExtensionAudit.Proofs.Version.Spellings
import ExtensionAudit.Version.ConstraintSyntax
/-
  What the two readers make of a spelling. Both take the values of its segments and
  what its suffix says; a version is stable where that says nothing. Numbers written
  in decimal with dots between are a spelling of which both readers make these
  numbers again, as far as each of them fits a segment.

  Main statements: `Version.parse_eq_ok_iff`, `Operand.parse_eq_ok_iff` and
  `Spelling.read?_numerals`.
-/

namespace ExtensionAudit

/-! ## Spellings and their values -/

/-- The stability and the number of a suffix, unless its digits have no value. -/
def Suffix.value? : Suffix → Option (Stability × Nat)
  | ⟨stability, none⟩ => some (stability, 0)
  | ⟨stability, some run⟩ => (segment? run).map fun n => (stability, n)

/-- What a spelling says of the stability: nothing, or what its suffix stands for. -/
def Spelling.stability? (x : Spelling) : Option (Option (Stability × Nat)) :=
  x.suffix.elim (some none) fun suffix => suffix.value?.map some

/-- A version is what its spelling says, and stable where that says nothing. -/
theorem Version.parse_eq_ok_iff {s : String} {v : Version} :
    Version.parse s = .ok v ↔ ∃ x values written,
      Spelling.read? false (Text.trim s.toList) = some x ∧
      Version.segmentValues x.segments = some values ∧ x.stability? = some written ∧
      v = { Version.ofParts values (written.getD (.stable, 0)).1 (written.getD (.stable, 0)).2 with
        spelling := trimmed s } := by
  unfold Version.parse trimmed
  cases hread : Spelling.read? false (Text.trim s.toList) with
  | none => simp [hread, throw, throwThe, MonadExceptOf.throw]
  | some x =>
    obtain ⟨segments, suffix⟩ := x
    cases hvalues : Version.segmentValues segments with
    | none => simp [hread, hvalues, throw, throwThe, MonadExceptOf.throw]
    | some values =>
      -- without digits the number of a suffix is zero
      match suffix with
      | none | some ⟨stability, none⟩ =>
        simp [hread, hvalues, Spelling.stability?, Suffix.value?, bind, Except.bind, pure,
          Except.pure, eq_comm]
      | some ⟨stability, some run⟩ =>
        cases hrun : segment? run <;>
          simp [hread, hvalues, hrun, Spelling.stability?, Suffix.value?, bind, Except.bind, pure,
            Except.pure, throw, throwThe, MonadExceptOf.throw, eq_comm]

/-- An operand is what its spelling says. -/
theorem Operand.parse_eq_ok_iff {s : Text} {x : Operand} :
    Operand.parse s = .ok x ↔ ∃ spelling, Spelling.read? true s = some spelling ∧
      Operand.partsOf spelling.segments = .ok (x.parts, x.wildcard) ∧
      spelling.stability? = some x.stability := by
  obtain ⟨parts, wildcard, stability⟩ := x
  unfold Operand.parse
  cases hread : Spelling.read? true s with
  | none => simp [throw, throwThe, MonadExceptOf.throw]
  | some spelling =>
    obtain ⟨segments, suffix⟩ := spelling
    cases hparts : Operand.partsOf segments with
    | error e => simp [hparts, bind, Except.bind]
    | ok p =>
      match suffix with
      | none | some ⟨stability, none⟩ =>
        simp [hparts, Spelling.stability?, Suffix.value?, bind, Except.bind, pure, Except.pure,
          Prod.ext_iff, and_assoc]
      | some ⟨stability, some run⟩ =>
        cases hrun : segment? run <;>
          simp [hparts, hrun, Spelling.stability?, Suffix.value?, bind, Except.bind, pure,
            Except.pure, throw, throwThe, MonadExceptOf.throw, Prod.ext_iff, and_assoc]

/-! ## Numbers in decimal -/

theorem segment?_toDigits {n : Nat} (h : n < segmentLimit) :
    segment? (Nat.toDigits 10 n) = some n := by
  have hdigits : (Nat.toDigits 10 n).all Char.isDigit = true :=
    List.all_eq_true.mpr fun c hc => Nat.isDigit_of_mem_toDigits (by decide) (by decide) hc
  have hvalue : decimalValue (Nat.toDigits 10 n) = n := Nat.ofDigitChars_ten_toDigits
  simp [segment?, hdigits, hvalue, h]

theorem isDecimal_of_mem_toDigits {n : Nat} {c : Char} (hc : c ∈ Nat.toDigits 10 n) :
    isDecimal c = true :=
  isDecimal_of_isDigit (Nat.isDigit_of_mem_toDigits (by decide) (by decide) hc)

namespace Spelling

/-- The segments that spell these numbers. -/
def numerals (ns : List Nat) : List Segment := ns.map fun n => .digits (Nat.toDigits 10 n)

/-- Numbers in decimal, each behind a dot. -/
def dottedTail (ns : List Nat) : Text := ns.flatMap fun n => '.' :: Nat.toDigits 10 n

theorem areWritten_dottedTail (wildcards : Bool) (ns : List Nat) :
    Segment.AreWritten wildcards (numerals ns) (dottedTail ns) := by
  induction ns with
  | nil => exact .nil
  | cons n ns ih =>
    exact .cons (.digits Nat.toDigits_ne_nil fun _ => isDecimal_of_mem_toDigits (n := n)) ih

/-- Numbers with dots between are read as these numbers, and what stands behind them as a
suffix. -/
theorem read?_numerals (wildcards : Bool) (n : Nat) {ns : List Nat} (hns : ns.length ≤ 3)
    {back : Text} {suffix : Option Suffix} (hback : Suffix.IsTail suffix back) :
    read? wildcards (Nat.toDigits 10 n ++ (dottedTail ns ++ back)) =
      some ⟨numerals (n :: ns), suffix⟩ := by
  refine read?_eq_some_iff.mpr ⟨[], Nat.toDigits 10 n, numerals ns, dottedTail ns, back, rfl,
    .inl rfl, rfl, Nat.toDigits_ne_nil, fun _ => isDecimal_of_mem_toDigits (n := n), ?_,
    areWritten_dottedTail wildcards ns, hback⟩
  rwa [numerals, List.length_map]

end Spelling

theorem Version.segmentValues_numerals {ns : List Nat} (h : ∀ n ∈ ns, n < segmentLimit) :
    Version.segmentValues (Spelling.numerals ns) = some ns := by
  induction ns with
  | nil => rfl
  | cons n ns ih =>
    obtain ⟨hn, h⟩ := List.forall_mem_cons.mp h
    have hcons : Spelling.numerals (n :: ns) =
        .digits (Nat.toDigits 10 n) :: Spelling.numerals ns := rfl
    simp [hcons, Version.segmentValues, segment?_toDigits hn, ih h]

namespace Operand

theorem partsOf_numerals {ns : List Nat} (h : ∀ n ∈ ns, n < segmentLimit) :
    partsOf (Spelling.numerals ns) = .ok (ns, false) := by
  induction ns with
  | nil => rfl
  | cons n ns ih =>
    obtain ⟨hn, h⟩ := List.forall_mem_cons.mp h
    have hcons : Spelling.numerals (n :: ns) =
        .digits (Nat.toDigits 10 n) :: Spelling.numerals ns := rfl
    simp [hcons, partsOf, segment?_toDigits hn, ih h, Except.map]

theorem parse_numerals {n : Nat} {ns : List Nat} (hns : ns.length ≤ 3)
    (h : ∀ m ∈ n :: ns, m < segmentLimit) :
    parse (Nat.toDigits 10 n ++ Spelling.dottedTail ns) = .ok ⟨n :: ns, false, none⟩ := by
  have hread := Spelling.read?_numerals true n hns .nothing
  rw [List.append_nil] at hread
  exact parse_eq_ok_iff.mpr ⟨_, hread, partsOf_numerals h, rfl⟩

end Operand

end ExtensionAudit
