import ExtensionAudit.Proofs.Results
import ExtensionAudit.Proofs.Version.RangeText
/-
  Comparisons with one operand. What `<` admits `>=` does not, and what `>` admits
  `<=` does not, whatever the operand. Of an operand without a wildcard the same holds
  of `!=` and `=`. With a wildcard `=` stands for a whole series, while `!=` excludes
  one version of it only, so both admit the others.

  Main statements: `complementary_iff` and, as its failure, `not_complementary_series`.
-/

namespace ExtensionAudit

theorem Version.decide_lt (v w : Version) : decide (v < w) = ! decide (w ≤ v) := by
  by_cases h : v < w
  · have hle : ¬ w ≤ v := fun hle => hle h
    simp [h, hle]
  · simp [h, Version.not_lt_iff.mp h]

namespace Operand

variable {x : Operand}

/-- Whether a version begins with the parts of an operand and is not before its floor. -/
def IsInSeries (x : Operand) (v : Version) : Prop := x.floor ≤ v ∧ x.parts <+: v.segments

theorem segments_floor (hx : x.Formed) : x.floor.segments = x.exact.segments :=
  (Version.segments_ofParts hx.length_le _ _).trans (segments_exact hx).symm

theorem prefix_of_segments (hx : x.Formed) {v : Version} (hv : v.segments = x.exact.segments) :
    x.parts <+: v.segments := by
  rw [hv, segments_exact hx]
  exact List.prefix_append _ _

theorem floor_le_exact (hx : x.Formed) : x.floor ≤ x.exact := by
  refine Version.not_lt_iff.mp fun hlt => ?_
  rw [Version.lt_iff_of_segments (segments_floor hx).symm] at hlt
  unfold floor exact at hlt
  cases hstability : x.stability with
  | none => simp [hstability, Version.ofParts, Stability.rank] at hlt
  | some p => simp [hstability] at hlt

theorem isInSeries_of_same (hx : x.Formed) {v : Version} (hv : v.Same x.exact) :
    x.IsInSeries v := by
  have hfloor : x.floor ≤ v :=
    Version.le_trans (floor_le_exact hx) (Version.same_iff_le.mp hv).2
  exact ⟨hfloor, prefix_of_segments hx (Version.segments_eq_of_same hv)⟩

/-- A series has a version besides the operand itself: its pre-release, or, where one is written,
the stable version. -/
theorem exists_in_series {s : Text} (h : parse s = .ok x) :
    ∃ v, x.IsInSeries v ∧ ¬v.Same x.exact := by
  have hx := formed_of_parse h
  cases hstability : x.stability with
  | none =>
    have hseries : x.IsInSeries x.floor :=
      ⟨Version.le_refl _, prefix_of_segments hx (segments_floor hx)⟩
    refine ⟨x.floor, hseries, fun hsame => ?_⟩
    have hrank := (List.append_inj hsame rfl).2
    simp [floor, exact, hstability, Version.ofParts, Stability.rank] at hrank
  | some p =>
    obtain ⟨stability, n⟩ := p
    have hpre : stability.rank < Stability.stable.rank := by
      cases stability with
      | stable => exact absurd rfl (stability_of_parse h hstability)
      | dev | alpha | beta | rc => decide
    have hsegments : (Version.ofParts x.parts .stable 0).segments = x.exact.segments :=
      (Version.segments_ofParts hx.length_le _ _).trans (segments_exact hx).symm
    have hlt : x.exact < .ofParts x.parts .stable 0 := by
      rw [Version.lt_iff_of_segments hsegments.symm, exact, hstability]
      exact .inl hpre
    refine ⟨.ofParts x.parts .stable 0, ⟨?_, prefix_of_segments hx hsegments⟩, fun hsame => ?_⟩
    · exact Version.le_trans (floor_le_exact hx) (Version.le_of_lt hlt)
    · exact (Version.same_iff_le.mp hsame).1 hlt

end Operand

namespace Operator

/-- How an operator is written. -/
def sign : Operator → String
  | .equal => "="
  | .atLeast => ">="
  | .greater => ">"
  | .atMost => "<="
  | .less => "<"
  | .unequal => "!="
  | .tilde => "~"
  | .caret => "^"

theorem split_sign {s : Text} {x : Operand} (h : Operand.parse s = .ok x) (op : Operator) :
    split (op.sign.toList ++ s) = (op, s) := by
  obtain ⟨spelling, hread, -⟩ := Operand.parse_eq_ok_iff.mp h
  obtain ⟨⟨c, r, rfl, hc⟩, -⟩ := Spelling.read?_sound hread
  have hequal : c ≠ '=' := by
    rintro rfl
    revert hc
    decide
  cases op <;> simp [sign, split, hequal]

/-- With a wildcard `=` stands for the series of its operand, otherwise for the operand alone. -/
theorem admits_equal {x : Operand} (hx : x.Formed) {t : Term} (h : Operator.equal.term x = .ok t)
    (v : Version) : t.admits v = true ↔
      x.wildcard = true ∧ x.IsInSeries v ∨ x.wildcard = false ∧ v.Same x.exact := by
  cases hwildcard : x.wildcard with
  | true =>
    have hterm : x.upToNext (x.parts.length - 1) = .ok t := by
      rw [← h]
      simp [term, hwildcard, hx.ne_nil]
    have hall : x.parts.take (x.parts.length - 1 + 1) = x.parts := by
      rw [Nat.sub_add_cancel (List.length_pos_iff.mpr hx.ne_nil), List.take_length]
    have hadmits := (Operand.upToNext_increments hx _).of_ok hterm v
    rw [hall] at hadmits
    rw [hadmits]
    simp [Operand.IsInSeries]
  | false =>
    have hterm : t = .range (.inclusive x.exact) (.inclusive x.exact) := by
      simpa [term, hwildcard, eq_comm] using h
    simp [hterm, Term.admits, Term.above, Term.below, Version.same_iff_le, and_comm]

end Operator

namespace Constraint

/-- Whether two constraints admit different versions, and each version is admitted by one. -/
def IsComplement (c d : Constraint) : Prop := ∀ v, c.admits v = ! d.admits v

theorem parse_sign {operand : String} {x : Operand} (h : Operand.parse operand.toList = .ok x)
    (op : Operator) : parse (op.sign ++ operand) =
      (op.term x).map fun t => ⟨[[t]], op.sign ++ operand⟩ := by
  have hapart := Operand.apart_of_parse h
  have hall : op.sign.toList.all
      (fun c => isBlank c = false ∧ c ≠ ',' ∧ c ≠ '|' ∧ c ≠ '@') = true := by
    cases op <;> decide
  have hsign : ∀ c ∈ op.sign.toList, isBlank c = false ∧ c ≠ ',' ∧ c ≠ '|' ∧ c ≠ '@' :=
    fun c hc => of_decide_eq_true (List.all_eq_true.mp hall c hc)
  have hword : ∀ c ∈ op.sign.toList ++ operand.toList,
      isBlank c = false ∧ c ≠ ',' ∧ c ≠ '|' ∧ c ≠ '@' := by
    intro c hc
    exact (List.mem_append.mp hc).elim (hsign c) (hapart c)
  have hlength : 2 ≤ (op.sign.toList ++ operand.toList).length := by
    have hone : 1 ≤ op.sign.toList.length := by cases op <;> decide
    have hmore := List.length_pos_iff.mpr (Operand.ne_nil_of_parse h)
    rw [List.length_append]
    omega
  have hlone (c : Char) : op.sign.toList ++ operand.toList ≠ [c] := by
    intro hword
    simp [hword] at hlength
  have hne : op.sign.toList ++ operand.toList ≠ [] := by
    intro hword
    simp [hword] at hlength
  have hs : (op.sign ++ operand).toList = [] ++ (op.sign.toList ++ operand.toList) ++ [] := by simp
  rw [parse_word hs (by simp) (fun c hc => ⟨(hword c hc).1, (hword c hc).2.1, (hword c hc).2.2.1⟩)
      hne,
    parseTerm_of_split (fun c hc => (hword c hc).2.2.2) ⟨hne, hlone _, hlone _, hlone _⟩
      (Operator.split_sign h op) h]
  simp

theorem isComplement_of_terms {t t' : Term} (h : ∀ v, t.admits v = ! t'.admits v)
    (text text' : String) : IsComplement ⟨[[t]], text⟩ ⟨[[t']], text'⟩ := by
  intro v
  rw [admits_single, admits_single, h]

/-- Where `!=` and `=` agree on a version, they both admit it, and it is in the series of an operand
with a wildcard. -/
theorem admits_unequal_eq_iff {x : Operand} (hx : x.Formed) {t : Term}
    (ht : Operator.equal.term x = .ok t) (v : Version) :
    (Term.excluded x.exact).admits v = t.admits v ↔
      x.wildcard = true ∧ x.IsInSeries v ∧ ¬v.Same x.exact := by
  have hequal := Operator.admits_equal hx ht v
  have hunequal : (Term.excluded x.exact).admits v = true ↔ ¬v.Same x.exact := by
    simp [Term.admits]
  rw [Bool.eq_iff_iff, hunequal, hequal]
  by_cases hsame : v.Same x.exact
  · have hseries := Operand.isInSeries_of_same hx hsame
    cases x.wildcard <;> simp [hsame, hseries]
  · cases x.wildcard <;> simp [hsame]

/-- Of an operand, what `<` admits `>=` does not, and what `>` admits `<=` does not. What `!=`
admits `=` does not if the operand has no wildcard; otherwise both admit the versions of its series
apart from the operand itself. -/
theorem complementary_iff {operand : String} {x : Operand}
    (h : Operand.parse operand.toList = .ok x) :
    (∃ c d, parse ("<" ++ operand) = .ok c ∧ parse (">=" ++ operand) = .ok d ∧
      c.IsComplement d) ∧
    (∃ c d, parse (">" ++ operand) = .ok c ∧ parse ("<=" ++ operand) = .ok d ∧
      c.IsComplement d) ∧
    ∃ c, parse ("!=" ++ operand) = .ok c ∧ ∀ d, parse ("=" ++ operand) = .ok d →
      (c.IsComplement d ↔ x.wildcard = false) ∧
      ∀ v, c.admits v = d.admits v ↔ x.wildcard = true ∧ x.IsInSeries v ∧ ¬v.Same x.exact := by
  refine ⟨⟨_, _, parse_sign h .less, parse_sign h .atLeast, ?_⟩,
    ⟨_, _, parse_sign h .greater, parse_sign h .atMost, ?_⟩,
    _, parse_sign h .unequal, fun d hd => ?_⟩
  · refine isComplement_of_terms (fun v => ?_) _ _
    simp [Term.admits, Term.above, Term.below, Version.decide_lt]
  · refine isComplement_of_terms (fun v => ?_) _ _
    simp [Term.admits, Term.above, Term.below, Version.decide_lt]
  · obtain ⟨t, ht, rfl⟩ := exists_of_map_eq_ok ((parse_sign h .equal).symm.trans hd)
    have hsame := admits_unequal_eq_iff (Operand.formed_of_parse h) ht
    simp only [IsComplement, admits_single]
    refine ⟨⟨fun hcomplement => ?_, fun hwildcard v => ?_⟩, hsame⟩
    · rw [← Bool.not_eq_true]
      intro hwildcard
      obtain ⟨v, hseries, hother⟩ := Operand.exists_in_series h
      have hboth := (hsame v).mpr ⟨hwildcard, hseries, hother⟩
      rw [hcomplement v] at hboth
      simp at hboth
    · refine Bool.eq_not.mpr fun hboth => ?_
      obtain ⟨hsome, -⟩ := (hsame v).mp hboth
      rw [hwildcard] at hsome
      cases hsome

/-- A series behind `<` and `>=`, and a pre-release behind `!=` and `=`. -/
theorem complementary_iff_series :
    (∃ c d, parse "<6.5.*" = .ok c ∧ parse ">=6.5.*" = .ok d ∧ c.IsComplement d) ∧
      ∃ c d, parse "!=6.5.0-rc1" = .ok c ∧ parse "=6.5.0-rc1" = .ok d ∧ c.IsComplement d := by
  have hseries : Operand.parse "6.5.*".toList = .ok ⟨[6, 5], true, none⟩ := by rfl
  have hpre : Operand.parse "6.5.0-rc1".toList = .ok ⟨[6, 5, 0], false, some (.rc, 1)⟩ := by rfl
  obtain ⟨hless, -⟩ := complementary_iff hseries
  obtain ⟨-, -, c, hc, hequal⟩ := complementary_iff hpre
  obtain ⟨d, hd, -⟩ := exists_ok_of_any (x := parse "=6.5.0-rc1") (p := fun _ => true)
    (by decide +kernel)
  exact ⟨hless, c, d, hc, hd, (hequal d hd).1.mpr rfl⟩

/-- A version of the series `6.5` that both `!=` and `=` admit. -/
theorem not_complementary_series :
    ∃ c d, parse "!=6.5.*" = .ok c ∧ parse "=6.5.*" = .ok d ∧
      c.admits (.release 6 5 1 0) = true ∧ d.admits (.release 6 5 1 0) = true := by
  obtain ⟨c, hc, hadmits⟩ := exists_ok_of_any (x := parse "!=6.5.*")
    (p := fun c => c.admits (.release 6 5 1 0)) (by decide +kernel)
  obtain ⟨d, hd, hadmits'⟩ := exists_ok_of_any (x := parse "=6.5.*")
    (p := fun d => d.admits (.release 6 5 1 0)) (by decide +kernel)
  exact ⟨c, d, hc, hd, hadmits, hadmits'⟩

end Constraint

end ExtensionAudit
