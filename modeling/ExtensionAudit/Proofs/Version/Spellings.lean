import ExtensionAudit.Version.Spelling
/-
  How versions and operands are written: a `v` or nothing, one to four segments with
  dots between them, and nothing or the word of a pre-release with its number. The
  reader takes what it can at every step, and nothing that it takes can belong to
  what comes next; so it reads every text that is written in this way, and as the
  spelling that is written.

  Main statement: `Spelling.read?_eq_some_iff`.
-/

namespace ExtensionAudit

/-- Digits of any script write themselves, and a star or an `x` writes a wildcard where those are
allowed. -/
inductive Segment.IsWritten (wildcards : Bool) : Segment → Text → Prop
  | digits {run : Text} (hne : run ≠ []) (hrun : ∀ c ∈ run, isDecimal c = true) :
      IsWritten wildcards (.digits run) run
  | wildcard {c : Char} (hallowed : wildcards = true) (hc : c = '*' ∨ c = 'x' ∨ c = 'X') :
      IsWritten wildcards .wildcard [c]

/-- Segments behind the first one, each with a dot in front of it. -/
inductive Segment.AreWritten (wildcards : Bool) : List Segment → Text → Prop
  | nil : AreWritten wildcards [] []
  | cons {segment : Segment} {segments : List Segment} {s t : Text}
      (hsegment : segment.IsWritten wildcards s) (hsegments : AreWritten wildcards segments t) :
      AreWritten wildcards (segment :: segments) ('.' :: (s ++ t))

namespace Suffix

/-- The word of a suffix in any case, and its digits, which a dot may stand in front of. -/
def IsBody (x : Suffix) (s : Text) : Prop :=
  ∃ word dot, s = word ++ (dot ++ x.digits.getD []) ∧
    (∃ w ∈ Spelling.suffixWords, word.map Char.toLower = w.1.toList ∧ x.stability = w.2) ∧
    (dot = [] ∨ dot = ['.']) ∧ ∀ run ∈ x.digits, run ≠ [] ∧ ∀ c ∈ run, isDecimal c = true

/-- A suffix is a body, which a hyphen or a dot may stand in front of. -/
def IsWritten (x : Suffix) (s : Text) : Prop :=
  ∃ sep body, s = sep ++ body ∧ (sep = [] ∨ sep = ['-'] ∨ sep = ['.']) ∧ x.IsBody body

/-- What stands behind the segments: nothing, or a suffix. -/
inductive IsTail : Option Suffix → Text → Prop
  | nothing : IsTail none []
  | suffix {x : Suffix} {s : Text} (hx : x.IsWritten s) : IsTail (some x) s

end Suffix

namespace Spelling

/-- A spelling is its mark, its segments and its suffix, where it has these. -/
def IsWritten (wildcards : Bool) (x : Spelling) (s : Text) : Prop :=
  ∃ mark run segments more back, s = mark ++ (run ++ (more ++ back)) ∧
    (mark = [] ∨ mark = ['v'] ∨ mark = ['V']) ∧
    x.segments = .digits run :: segments ∧ run ≠ [] ∧ (∀ c ∈ run, isDecimal c = true) ∧
    segments.length ≤ 3 ∧ Segment.AreWritten wildcards segments more ∧
    Suffix.IsTail x.suffix back

/-- A mark is nothing or one of two characters, and so is what stands in front of a suffix. -/
theorem forall_mem_of_optional {P : Char → Prop} {a b : Char} {s : Text}
    (hs : s = [] ∨ s = [a] ∨ s = [b]) (ha : P a) (hb : P b) : ∀ c ∈ s, P c := by
  rcases hs with rfl | rfl | rfl
  · exact nofun
  · exact List.forall_mem_singleton.mpr ha
  · exact List.forall_mem_singleton.mpr hb

/-! ## Digits and segments -/

theorem digits?_eq_none {c : Char} (hc : isDecimal c = false) (s : Text) :
    digits? (c :: s) = none := by
  simp [digits?, hc]

theorem digits?_eq_some_iff {s run r : Text} :
    digits? s = some (run, r) ↔ s = run ++ r ∧ run ≠ [] ∧ (∀ c ∈ run, isDecimal c = true) ∧
      r.head?.all (! isDecimal ·) = true := by
  constructor
  · intro h
    unfold digits? at h
    split at h
    · cases h
    · rename_i hrun
      cases h
      have hhead := List.head?_dropWhile_not isDecimal s
      refine ⟨List.takeWhile_append_dropWhile.symm, hrun,
        fun c hc => List.all_eq_true.mp List.all_takeWhile c hc, ?_⟩
      cases hr : (s.dropWhile isDecimal).head? with
      | none => rfl
      | some c =>
        rw [hr] at hhead
        simpa using hhead
  · rintro ⟨rfl, hne, hrun, hr⟩
    have hstop : r.takeWhile isDecimal = [] ∧ r.dropWhile isDecimal = r := by
      cases r with
      | nil => exact ⟨rfl, rfl⟩
      | cons c r => simp_all
    unfold digits?
    rw [List.takeWhile_append_of_pos hrun, List.dropWhile_append_of_pos hrun, hstop.1, hstop.2,
      List.append_nil]
    cases run with
    | nil => exact absurd rfl hne
    | cons c run => rfl

variable {wildcards : Bool}

theorem segment?_sound {s r : Text} {segment : Segment}
    (h : segment? wildcards s = some (segment, r)) :
    ∃ t, s = t ++ r ∧ segment.IsWritten wildcards t := by
  unfold segment? at h
  cases hdigits : digits? s with
  | some p =>
    rw [hdigits] at h
    cases h
    obtain ⟨hs, hne, hrun, -⟩ := digits?_eq_some_iff.mp hdigits
    exact ⟨p.1, hs, .digits hne hrun⟩
  | none =>
    rw [hdigits] at h
    cases s with
    | nil => cases h
    | cons c s =>
      simp only [Option.ite_none_right_eq_some, Bool.and_eq_true, Bool.or_eq_true,
        decide_eq_true_eq] at h
      obtain ⟨⟨hallowed, hc⟩, h⟩ := h
      cases h
      exact ⟨[c], rfl, .wildcard hallowed (by rwa [or_assoc] at hc)⟩

theorem segment?_complete {t r : Text} {segment : Segment} (h : segment.IsWritten wildcards t)
    (hr : r.head?.all (! isDecimal ·) = true) :
    segment? wildcards (t ++ r) = some (segment, r) := by
  unfold segment?
  cases h with
  | digits hne hrun => rw [digits?_eq_some_iff.mpr ⟨rfl, hne, hrun, hr⟩]
  | @wildcard c hallowed hc =>
    have hnone : isDecimal c = false := by rcases hc with rfl | rfl | rfl <;> decide
    rw [List.cons_append, digits?_eq_none hnone]
    simp only [List.nil_append, hallowed, Bool.true_and, Bool.or_eq_true, decide_eq_true_eq,
      or_assoc, hc, if_true]

theorem moreSegments_sound (n : Nat) (s : Text) :
    (moreSegments wildcards n s).1.length ≤ n ∧
      ∃ t, s = t ++ (moreSegments wildcards n s).2 ∧
        Segment.AreWritten wildcards (moreSegments wildcards n s).1 t := by
  fun_induction moreSegments wildcards n s with
  | case1 n s segment r hsegment segments rest hmore ih =>
    rw [hmore] at ih
    obtain ⟨hlength, t, hr, ht⟩ := ih
    obtain ⟨front, hs, hfront⟩ := segment?_sound hsegment
    refine ⟨Nat.succ_le_succ hlength, '.' :: (front ++ t), ?_, .cons hfront ht⟩
    rw [hs, hr, List.cons_append, List.append_assoc]
  | case2 n s hnone => exact ⟨Nat.zero_le _, [], rfl, .nil⟩
  | case3 n s hother => exact ⟨Nat.zero_le _, [], rfl, .nil⟩

/-- Whether no segment stands in front of a text, and no digit that would belong to one before. -/
structure EndsSegments (wildcards : Bool) (r : Text) : Prop where
  digit : r.head?.all (! isDecimal ·) = true
  segment : ∀ t, r = '.' :: t → segment? wildcards t = none

theorem head?_of_areWritten {segments : List Segment} {t r : Text}
    (h : Segment.AreWritten wildcards segments t) (hr : EndsSegments wildcards r) :
    (t ++ r).head?.all (! isDecimal ·) = true := by
  cases h with
  | nil => exact hr.digit
  | cons => rfl

theorem moreSegments_complete {n : Nat} {segments : List Segment} {t r : Text}
    (h : Segment.AreWritten wildcards segments t) (hlength : segments.length ≤ n)
    (hr : EndsSegments wildcards r) :
    moreSegments wildcards n (t ++ r) = (segments, r) := by
  induction h generalizing n with
  | nil =>
    rw [List.nil_append]
    unfold moreSegments
    split
    · rename_i s
      rw [hr.segment s rfl]
    · rfl
  | @cons segment segments s t hsegment hsegments ih =>
    obtain ⟨m, rfl⟩ := Nat.exists_eq_add_of_le' hlength
    have hread := segment?_complete hsegment (head?_of_areWritten hsegments hr)
    have hmore := ih (n := m + segments.length) (Nat.le_add_left _ _)
    rw [List.cons_append, List.append_assoc, List.length_cons, ← Nat.add_assoc, moreSegments, hread]
    simp only [hmore]

/-! ## Suffixes -/

theorem suffixDigits?_eq_some_iff {s : Text} {digits : Option Text} :
    suffixDigits? s = some digits ↔ ∃ dot, s = dot ++ digits.getD [] ∧ (dot = [] ∨ dot = ['.']) ∧
      ∀ run ∈ digits, run ≠ [] ∧ ∀ c ∈ run, isDecimal c = true := by
  -- what is left behind the dot is nothing, or digits to its end
  have hrun (r : Text) : (if r.isEmpty then some none
      else if r.all isDecimal then some (some r) else none) = some digits ↔
        r = digits.getD [] ∧ ∀ run ∈ digits, run ≠ [] ∧ ∀ c ∈ run, isDecimal c = true := by
    cases r with
    | nil =>
      cases digits with
      | none => simp
      | some run =>
        constructor
        · intro h
          cases h
        · rintro ⟨rfl, hdigits⟩
          exact absurd rfl (hdigits [] rfl).1
    | cons c r =>
      cases digits with
      | none => simp
      | some run =>
        simp only [List.isEmpty_cons, Bool.false_eq_true, if_false, Option.ite_none_right_eq_some,
          Option.some.injEq, List.all_eq_true, Option.getD_some, Option.mem_def, forall_eq']
        constructor
        · rintro ⟨hall, rfl⟩
          exact ⟨rfl, List.cons_ne_nil c r, hall⟩
        · rintro ⟨rfl, -, hall⟩
          exact ⟨hall, rfl⟩
  unfold suffixDigits?
  split
  · rename_i r
    rw [hrun]
    constructor
    · rintro ⟨rfl, hdigits⟩
      exact ⟨['.'], rfl, .inr rfl, hdigits⟩
    · rintro ⟨dot, hs, rfl | rfl, hdigits⟩
      · -- digits do not begin with a dot
        cases digits with
        | none => cases hs
        | some run =>
          obtain rfl : '.' :: r = run := hs
          exact absurd ((hdigits _ rfl).2 '.' List.mem_cons_self) (by decide)
      · exact ⟨(List.cons.inj hs).2, hdigits⟩
  · rename_i r hother
    rw [hrun]
    constructor
    · rintro ⟨rfl, hdigits⟩
      exact ⟨[], rfl, .inl rfl, hdigits⟩
    · rintro ⟨dot, hs, rfl | rfl, hdigits⟩
      · exact ⟨hs, hdigits⟩
      · exact absurd hs (hother _)

theorem suffixWord?_eq_some_iff {s : Text} {name : String} {stability : Stability}
    (hlower : name.toList.map Char.toLower = name.toList) {x : Suffix} :
    suffixWord? s name stability = some x ↔ ∃ word dot, s = word ++ (dot ++ x.digits.getD []) ∧
      word.map Char.toLower = name.toList ∧ x.stability = stability ∧ (dot = [] ∨ dot = ['.']) ∧
      ∀ run ∈ x.digits, run ≠ [] ∧ ∀ c ∈ run, isDecimal c = true := by
  unfold suffixWord?
  simp only [Text.sameIgnoringCase, hlower, Option.ite_none_right_eq_some, beq_iff_eq,
    Option.map_eq_some_iff, suffixDigits?_eq_some_iff]
  constructor
  · rintro ⟨hword, digits, ⟨dot, hdrop, hdot, hdigits⟩, rfl⟩
    refine ⟨_, dot, ?_, hword, rfl, hdot, hdigits⟩
    rw [← hdrop, List.take_append_drop]
  · rintro ⟨word, dot, rfl, hword, rfl, hdot, hdigits⟩
    have hlength : name.length = word.length := by
      rw [← String.length_toList, ← hword, List.length_map]
    rw [hlength, List.take_left, List.drop_left]
    exact ⟨hword, x.digits, ⟨dot, rfl, hdot, hdigits⟩, rfl⟩

theorem of_mem_suffixWords {w : String × Stability} (h : w ∈ suffixWords) :
    w.1.toList.map Char.toLower = w.1.toList ∧ w.1.toList.all Char.isAlpha = true ∧
      w.1.toList ≠ [] ∧ w.2 ≠ .stable := by
  have hwords : ∀ w ∈ suffixWords, w.1.toList.map Char.toLower = w.1.toList ∧
      w.1.toList.all Char.isAlpha = true ∧ w.1.toList ≠ [] ∧ w.2 ≠ .stable := by
    decide
  exact hwords w h

end Spelling

/-! ## Letters -/

theorem toNat_of_isAlpha {c : Char} (h : c.isAlpha = true) :
    (65 ≤ c.toNat ∧ c.toNat ≤ 90) ∨ (97 ≤ c.toNat ∧ c.toNat ≤ 122) := by
  have hletter : c.isUpper = true ∨ c.isLower = true := (Bool.or_eq_true _ _).mp h
  rcases hletter with hupper | hlower
  · exact .inl (of_decide_eq_true hupper)
  · obtain ⟨hlow, hhigh⟩ := (Bool.and_eq_true _ _).mp hlower
    exact .inr ⟨of_decide_eq_true hlow, of_decide_eq_true hhigh⟩

theorem isDecimal_of_isAlpha {c : Char} (h : c.isAlpha = true) : isDecimal c = false := by
  have hletters : ∀ n ∈ List.range' 65 58,
      decimalZeros.any (fun z => z ≤ n && n ≤ z + 9) = false := by decide
  have hrange := toNat_of_isAlpha h
  exact hletters c.toNat (List.mem_range'_1.mpr (by omega))

theorem isAlpha_of_toLower {c : Char} (h : c.toLower.isAlpha = true) : c.isAlpha = true := by
  unfold Char.toLower at h
  split at h
  · rename_i hupper
    have hletter : c.isUpper = true := decide_eq_true hupper
    exact (Bool.or_eq_true _ _).mpr (.inl hletter)
  · exact h

namespace Suffix

variable {x y : Suffix} {s : Text}

/-- A body is the letters of its word, at least one, and no letter goes on from there. -/
theorem IsBody.letters (h : x.IsBody s) : ∃ c word tail, s = c :: word ++ tail ∧
    (∀ a ∈ c :: word, a.isAlpha = true) ∧ s.takeWhile Char.isAlpha = c :: word ∧
    (∃ w ∈ Spelling.suffixWords, (c :: word).map Char.toLower = w.1.toList ∧ x.stability = w.2) ∧
    Spelling.suffixDigits? tail = some x.digits := by
  obtain ⟨word, dot, rfl, ⟨w, hw, hword, hstability⟩, hdot, hdigits⟩ := h
  obtain ⟨-, halpha, hne, -⟩ := Spelling.of_mem_suffixWords hw
  have hletters : ∀ a ∈ word, a.isAlpha = true := by
    intro a ha
    refine isAlpha_of_toLower (List.all_eq_true.mp halpha _ ?_)
    rw [← hword]
    exact List.mem_map_of_mem ha
  -- neither a dot nor a digit goes on with the letters of the word
  have htail : (dot ++ x.digits.getD []).takeWhile Char.isAlpha = [] := by
    rcases hdot with rfl | rfl
    · cases hrun : x.digits with
      | none => rfl
      | some run =>
        obtain ⟨hne, hrun⟩ := hdigits run hrun
        obtain ⟨d, run, rfl⟩ := List.exists_cons_of_ne_nil hne
        refine List.takeWhile_cons_of_neg fun halpha => ?_
        have hdecimal := hrun d List.mem_cons_self
        rw [isDecimal_of_isAlpha halpha] at hdecimal
        cases hdecimal
    · exact List.takeWhile_cons_of_neg (by decide)
  cases word with
  | nil => exact absurd hword.symm hne
  | cons c word =>
    refine ⟨c, word, dot ++ x.digits.getD [], rfl, hletters, ?_, ⟨w, hw, hword, hstability⟩,
      Spelling.suffixDigits?_eq_some_iff.mpr ⟨dot, rfl, hdot, hdigits⟩⟩
    rw [List.takeWhile_append_of_pos hletters, htail, List.append_nil]

theorem IsBody.unique (hx : x.IsBody s) (hy : y.IsBody s) : x = y := by
  have hnames : ∀ w ∈ Spelling.suffixWords, ∀ w' ∈ Spelling.suffixWords,
      w.1.toList = w'.1.toList → w.2 = w'.2 := by decide
  obtain ⟨c, word, tail, hs, -, hfront, ⟨w, hw, hword, hstability⟩, hdigits⟩ := hx.letters
  obtain ⟨c', word', tail', hs', -, hfront', ⟨w', hw', hword', hstability'⟩, hdigits'⟩ := hy.letters
  have hsame : c :: word = c' :: word' := hfront.symm.trans hfront'
  have htail : tail = tail' := by
    rw [hs, hsame] at hs'
    exact List.append_cancel_left hs'
  have hdigits : x.digits = y.digits := by
    rw [htail, hdigits'] at hdigits
    exact (Option.some.inj hdigits).symm
  have hstabilities : x.stability = y.stability := by
    rw [hstability, hstability']
    exact hnames w hw w' hw' (by rw [← hword, ← hword', hsame])
  cases x
  cases y
  cases hdigits
  cases hstabilities
  rfl

end Suffix

namespace Spelling

theorem findSome?_suffixWord_iff {body : Text} {x : Suffix} :
    suffixWords.findSome? (fun (word, stability) => suffixWord? body word stability) = some x ↔
      x.IsBody body := by
  have hsound {x : Suffix} (h : suffixWords.findSome?
      (fun (word, stability) => suffixWord? body word stability) = some x) : x.IsBody body := by
    obtain ⟨w, hw, h⟩ := List.exists_of_findSome?_eq_some h
    obtain ⟨word, dot, hs, hword, hstability, hdot, hdigits⟩ :=
      (suffixWord?_eq_some_iff (of_mem_suffixWords hw).1).mp h
    exact ⟨word, dot, hs, ⟨w, hw, hword, hstability⟩, hdot, hdigits⟩
  refine ⟨hsound, fun hx => ?_⟩
  -- the word that is written is found if no other is, and another one would make the same of it
  cases hfound : suffixWords.findSome?
      (fun (word, stability) => suffixWord? body word stability) with
  | some y => rw [(hsound hfound).unique hx]
  | none =>
    obtain ⟨word, dot, hs, ⟨w, hw, hword, hstability⟩, hdot, hdigits⟩ := hx
    have hread := (suffixWord?_eq_some_iff (of_mem_suffixWords hw).1).mpr
      ⟨word, dot, hs, hword, hstability, hdot, hdigits⟩
    have hnone : suffixWord? body w.1 w.2 = none := List.findSome?_eq_none_iff.mp hfound w hw
    rw [hnone] at hread
    cases hread

theorem suffix?_eq_some_iff {s : Text} {x : Suffix} : suffix? s = some x ↔ x.IsWritten s := by
  unfold suffix?
  rw [findSome?_suffixWord_iff]
  constructor
  · intro h
    cases s with
    | nil => exact ⟨[], [], rfl, .inl rfl, h⟩
    | cons c r =>
      dsimp only at h
      split at h
      · rename_i hc
        have hc : c = '-' ∨ c = '.' := by simpa using hc
        exact ⟨[c], r, rfl, .inr (hc.imp (congrArg ([·])) (congrArg ([·]))), h⟩
      · exact ⟨[], c :: r, rfl, .inl rfl, h⟩
  · rintro ⟨sep, body, rfl, rfl | rfl | rfl, hbody⟩
    · obtain ⟨c, word, tail, hs, hletters, -⟩ := hbody.letters
      have hc : ¬(c = '-' ∨ c = '.') := by
        rintro (rfl | rfl) <;> exact absurd (hletters _ List.mem_cons_self) (by decide)
      rw [List.nil_append, hs, List.cons_append]
      simp only [Bool.or_eq_true, decide_eq_true_eq, hc, if_false]
      rw [← List.cons_append, ← hs]
      exact hbody
    · exact hbody
    · exact hbody

/-- Where a suffix begins, the segments are at an end: no word begins with a wildcard. -/
theorem endsSegments_of_isWritten {wildcards : Bool} {suffix : Suffix} {s : Text}
    (h : suffix.IsWritten s) : EndsSegments wildcards s := by
  have hwildcards : ∀ w ∈ suffixWords,
      w.1.toList.head?.all (fun d => d ≠ '*' ∧ d ≠ 'x') = true := by decide
  obtain ⟨sep, body, rfl, hsep, hbody⟩ := h
  obtain ⟨c, word, tail, rfl, hletters, -, ⟨w, hw, hword, -⟩, -⟩ := hbody.letters
  have hdecimal := isDecimal_of_isAlpha (hletters c List.mem_cons_self)
  have hlower : c.toLower ≠ '*' ∧ c.toLower ≠ 'x' := by
    have hhead := hwildcards w hw
    rw [← hword] at hhead
    exact of_decide_eq_true hhead
  have hc : c ≠ '*' ∧ c ≠ 'x' ∧ c ≠ 'X' := by
    refine ⟨?_, ?_, ?_⟩ <;> rintro rfl
    · exact hlower.1 rfl
    · exact hlower.2 rfl
    · exact hlower.2 rfl
  have hnone (t : Text) : segment? wildcards (c :: t) = none := by
    simp [segment?, digits?_eq_none hdecimal, hc]
  rcases hsep with rfl | rfl | rfl
  · refine ⟨by simp [hdecimal], fun t ht => ?_⟩
    obtain ⟨rfl, -⟩ := List.cons.inj ht
    exact absurd (hletters '.' List.mem_cons_self) (by decide)
  · exact ⟨rfl, nofun⟩
  · refine ⟨rfl, fun t ht => ?_⟩
    obtain rfl : c :: word ++ tail = t := (List.cons.inj ht).2
    exact hnone _

theorem endsSegments_of_isTail {wildcards : Bool} {suffix : Option Suffix} {s : Text}
    (h : Suffix.IsTail suffix s) : EndsSegments wildcards s := by
  cases h with
  | nothing => exact ⟨rfl, nofun⟩
  | suffix hsuffix => exact endsSegments_of_isWritten hsuffix

/-! ## Whole texts -/

theorem dropMark_of_digit {c : Char} (hc : isDecimal c = true) (s : Text) :
    dropMark (c :: s) = c :: s := by
  have hmark : ¬(c = 'v' ∨ c = 'V') := by
    rintro (rfl | rfl) <;> exact absurd hc (by decide)
  simp [dropMark, hmark]

/-- A text is read as the spelling that it writes. -/
theorem read?_eq_some_iff {wildcards : Bool} {s : Text} {x : Spelling} :
    read? wildcards s = some x ↔ x.IsWritten wildcards s := by
  obtain ⟨segments, suffix⟩ := x
  constructor
  · intro h
    obtain ⟨⟨run, r⟩, hrun, h⟩ := Option.bind_eq_some_iff.mp h
    obtain ⟨hdrop, hne, hdigits, -⟩ := digits?_eq_some_iff.mp hrun
    obtain ⟨hlength, more, hr, hmore⟩ := @moreSegments_sound wildcards 3 r
    obtain ⟨mark, hs, hmark⟩ : ∃ mark, s = mark ++ dropMark s ∧
        (mark = [] ∨ mark = ['v'] ∨ mark = ['V']) := by
      cases s with
      | nil => exact ⟨[], rfl, .inl rfl⟩
      | cons c s =>
        by_cases hc : c = 'v' ∨ c = 'V'
        · refine ⟨[c], by simp [dropMark, hc], .inr ?_⟩
          exact hc.imp (congrArg ([·])) (congrArg ([·]))
        · exact ⟨[], by simp [dropMark, hc], .inl rfl⟩
    rw [hdrop] at hs
    simp only at h
    split at h
    · rename_i hempty
      have hnil := List.isEmpty_iff.mp hempty
      cases h
      exact ⟨mark, run, _, more, [], by rw [hs, hr, hnil], hmark, rfl, hne, hdigits, hlength, hmore,
        .nothing⟩
    · obtain ⟨suffix, hsuffix, h⟩ := Option.bind_eq_some_iff.mp h
      cases h
      exact ⟨mark, run, _, more, _, by rw [← hr, ← hs], hmark, rfl, hne, hdigits, hlength, hmore,
        .suffix (suffix?_eq_some_iff.mp hsuffix)⟩
  · rintro ⟨mark, run, behind, more, back, rfl, hmark, rfl, hne, hdigits, hlength, hmore, hback⟩
    have hends : EndsSegments wildcards back := endsSegments_of_isTail hback
    have hdrop : dropMark (mark ++ (run ++ (more ++ back))) = run ++ (more ++ back) := by
      obtain ⟨c, run, rfl⟩ := List.exists_cons_of_ne_nil hne
      rcases hmark with rfl | rfl | rfl
      · exact dropMark_of_digit (hdigits c List.mem_cons_self) _
      · rfl
      · rfl
    -- no digit goes on behind the first run, and no segment behind the last one
    have hread := digits?_eq_some_iff.mpr ⟨rfl, hne, hdigits, head?_of_areWritten hmore hends⟩
    simp only [read?, hdrop, hread, moreSegments_complete hmore hlength hends, Option.bind_eq_bind,
      Option.bind_some]
    cases hback with
    | nothing => rfl
    | suffix hsuffix =>
      have hback : back.isEmpty = false := by
        obtain ⟨sep, body, rfl, -, hbody⟩ := hsuffix
        obtain ⟨c, word, tail, rfl, -⟩ := hbody.letters
        simp
      rw [hback, suffix?_eq_some_iff.mpr hsuffix]
      rfl

end Spelling

end ExtensionAudit
