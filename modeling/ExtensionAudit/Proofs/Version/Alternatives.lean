import ExtensionAudit.Proofs.Version.Terms
/-
  The alternatives of a constraint. Text without a bar belongs to the alternative next
  to it, and two bars part the alternatives in front of them from those behind. Next to
  a third bar they leave an alternative without text between them, which is not read.
  Blanks around an alternative are dropped, so those around a constraint are as well.

  Main statements: `parse_eq_ok_iff` and `readAlternatives_append_bars`.
-/

namespace ExtensionAudit

namespace Text

theorem trim_of_blank_append {front : Text} (hfront : ∀ c ∈ front, isBlank c = true) (s : Text) :
    trim (front ++ s) = trim s := by
  rw [trim, trim, trimStart, List.dropWhile_append_of_pos hfront, trimStart]

theorem trim_append_blank (s : Text) {back : Text} (hback : ∀ c ∈ back, isBlank c = true) :
    trim (s ++ back) = trim s := by
  have hend (t : Text) : trimEnd (t ++ back) = trimEnd t := by
    rw [trimEnd, List.reverse_append, List.dropWhile_append_of_pos (by simpa using hback), trimEnd]
  rw [trim, trim, trimStart, List.dropWhile_append, trimStart]
  split
  · rename_i hnone
    have hback' : (back ++ []).dropWhile isBlank = [] := List.dropWhile_append_of_pos hback
    rw [List.isEmpty_iff.mp hnone, ← List.append_nil back, hback']
  · exact hend _

end Text

namespace Constraint

def readAlternatives (s : Text) : Except ConstraintFault (List (List Term)) :=
  (alternatives s).mapM parseAlternative

/-! ## Splitting at bars -/

theorem alternatives_ne_nil (s : Text) : alternatives s ≠ [] := by
  fun_cases alternatives s <;> simp [*]

theorem alternatives_cons {c : Char} (hc : c ≠ '|') {s part : Text} {parts : List Text}
    (h : alternatives s = part :: parts) : alternatives (c :: s) = (c :: part) :: parts := by
  rw [alternatives]
  · rw [h]
  · exact fun _ h => absurd h hc
  · exact fun h => absurd h hc

theorem alternatives_bar {s : Text} (hs : s.head? ≠ some '|') :
    alternatives ('|' :: s) = [] :: alternatives s := by
  rw [alternatives]
  rintro s' rfl
  exact hs rfl

/-- Behind a text that ends with no bar, or in front of one that begins with none, no bars come
together: the last alternative of the one and the first of the other are joined. -/
theorem alternatives_append {s r : Text} (hseam : s.getLast? = some '|' → r.head? ≠ some '|')
    {first last : Text} {front back : List Text} (hs : alternatives s = front ++ [last])
    (hr : alternatives r = first :: back) :
    alternatives (s ++ r) = front ++ (last ++ first) :: back := by
  fun_induction alternatives s generalizing front last with
  | case1 =>
    obtain ⟨rfl, rfl⟩ : front = [] ∧ last = [] := by
      simpa [List.append_eq_singleton_iff, eq_comm] using hs
    exact hr
  | case2 s ih =>
    obtain ⟨-, hnil⟩ | ⟨front, rfl, hrest⟩ := List.cons_eq_append_iff.mp hs
    · exact absurd (List.cons.inj hnil).2.symm (alternatives_ne_nil s)
    · have hseam : s.getLast? = some '|' → r.head? ≠ some '|' := fun hlast =>
        hseam (by simp [List.getLast?_cons, hlast])
      -- a double bar lies in `s` as a whole
      have happend := ih hseam hrest
      rw [List.cons_append, List.cons_append, alternatives, happend, List.cons_append]
  | case3 s hbar ih =>
    obtain ⟨-, hnil⟩ | ⟨front, rfl, hrest⟩ := List.cons_eq_append_iff.mp hs
    · exact absurd (List.cons.inj hnil).2.symm (alternatives_ne_nil s)
    · -- no second bar follows this one, at the seam by `hseam`
      have hsep : (s ++ r).head? ≠ some '|' := by
        cases s with
        | nil => exact hseam rfl
        | cons c s =>
          intro hc
          obtain rfl : c = '|' := Option.some.inj hc
          exact hbar s rfl
      have hseam : s.getLast? = some '|' → r.head? ≠ some '|' := fun hlast =>
        hseam (by simp [List.getLast?_cons, hlast])
      have happend := ih hseam hrest
      rw [List.cons_append, alternatives_bar hsep, happend, List.cons_append]
  | case4 c s _ _ hnone => exact absurd hnone (alternatives_ne_nil s)
  | case5 c s _ hc part parts hparts ih =>
    have hbar : c ≠ '|' := hc
    have hseam : s.getLast? = some '|' → r.head? ≠ some '|' := fun hlast =>
      hseam (by simp [List.getLast?_cons, hlast])
    obtain ⟨rfl, hlast⟩ | ⟨front, rfl, hrest⟩ := List.cons_eq_append_iff.mp hs
    · obtain ⟨rfl, rfl⟩ := List.cons.inj hlast
      have hs : alternatives s = [] ++ [part] := hparts
      exact alternatives_cons hbar (ih hseam hs)
    · have hs : alternatives s = (part :: front) ++ [last] := by rw [hparts, hrest, List.cons_append]
      exact alternatives_cons hbar (ih hseam hs)

/-- Two bars behind a text that ends with none part its alternatives from those behind. -/
theorem alternatives_append_bars {s : Text} (hs : s.getLast? ≠ some '|') (r : Text) :
    alternatives (s ++ '|' :: '|' :: r) = alternatives s ++ alternatives r := by
  obtain ⟨front, last, hlast⟩ : ∃ front last, alternatives s = front ++ [last] :=
    ⟨_, _, (List.dropLast_concat_getLast (alternatives_ne_nil s)).symm⟩
  have hbars : alternatives ('|' :: '|' :: r) = [] :: alternatives r := by rw [alternatives]
  rw [alternatives_append (fun h => absurd h hs) hlast hbars, hlast]
  simp

theorem exists_alternatives_bar (s : Text) :
    ∃ r, alternatives ('|' :: s) = [] :: alternatives r := by
  cases s with
  | nil => exact ⟨[], rfl⟩
  | cons c s =>
    by_cases hc : c = '|'
    · subst hc
      exact ⟨s, by rw [alternatives]⟩
    · exact ⟨c :: s, alternatives_bar (by simpa using hc)⟩

/-- A bar at the end, or one with two more behind it, leaves an alternative without text. -/
theorem nil_mem_alternatives {s r : Text} (hr : r = [] ∨ ∃ r', r = '|' :: '|' :: r') :
    [] ∈ (alternatives (s ++ '|' :: r)).tail := by
  -- the first alternative is left out, as it goes on to the left
  have hnil : [] ∈ alternatives r := by
    rcases hr with rfl | ⟨r, rfl⟩ <;> simp [alternatives]
  fun_induction alternatives s with
  | case1 =>
    rcases hr with rfl | ⟨r, rfl⟩
    · simp [alternatives]
    · obtain ⟨r', hr'⟩ := exists_alternatives_bar r
      simp [alternatives, hr']
  | case2 s ih => exact List.mem_of_mem_tail ih
  | case3 s hbar ih =>
    cases s with
    | nil => simpa [alternatives] using hnil
    | cons c s =>
      have hc : c ≠ '|' := fun hc => hbar s (by rw [hc])
      have hsep : (c :: s ++ '|' :: r).head? ≠ some '|' := by simpa using hc
      rw [List.cons_append, alternatives_bar hsep]
      exact List.mem_of_mem_tail ih
  | case4 c s _ _ hnone => exact absurd hnone (alternatives_ne_nil s)
  | case5 c s _ hc part parts hparts ih =>
    obtain ⟨first, others, hothers⟩ :=
      List.exists_cons_of_ne_nil (alternatives_ne_nil (s ++ '|' :: r))
    rw [hothers] at ih
    rw [List.cons_append, alternatives_cons hc hothers]
    exact ih

/-! ## Reading the alternatives -/

theorem parseAlternative_of_trim_eq {s r : Text} (h : Text.trim s = Text.trim r) :
    parseAlternative s = parseAlternative r := by
  rw [parseAlternative, parseAlternative, h]

theorem not_mem_bar_of_blank {gap : Text} (hgap : ∀ c ∈ gap, isBlank c = true) : '|' ∉ gap :=
  fun hbar => absurd (hgap '|' hbar) (by decide)

theorem readAlternatives_of_blank_append {gap : Text} (hgap : ∀ c ∈ gap, isBlank c = true)
    (s : Text) : readAlternatives (gap ++ s) = readAlternatives s := by
  obtain ⟨first, back, hs⟩ := List.exists_cons_of_ne_nil (alternatives_ne_nil s)
  have hbar := not_mem_bar_of_blank hgap
  have hnone : alternatives gap = [] ++ [gap] :=
    alternatives_of_no_bar fun c hc h => hbar (h ▸ hc)
  have hjoined := alternatives_append (fun h => absurd (List.mem_of_getLast? h) hbar) hnone hs
  have hfirst := parseAlternative_of_trim_eq (Text.trim_of_blank_append hgap first)
  rw [readAlternatives, hjoined, readAlternatives, hs, List.nil_append, List.mapM_cons, hfirst,
    List.mapM_cons]

theorem readAlternatives_append_blank (s : Text) {gap : Text}
    (hgap : ∀ c ∈ gap, isBlank c = true) : readAlternatives (s ++ gap) = readAlternatives s := by
  have hs := (List.dropLast_concat_getLast (alternatives_ne_nil s)).symm
  have hbar := not_mem_bar_of_blank hgap
  have hnone := alternatives_of_no_bar (s := gap) fun c hc h => hbar (h ▸ hc)
  have hjoined := alternatives_append (fun _ h => hbar (List.mem_of_head? h)) hs hnone
  have hlast := parseAlternative_of_trim_eq
    (Text.trim_append_blank ((alternatives s).getLast (alternatives_ne_nil s)) hgap)
  rw [readAlternatives, hjoined, List.mapM_append, List.mapM_cons, hlast, ← List.mapM_cons,
    ← List.mapM_append, ← hs, readAlternatives]

/-- Blanks around a text belong to its first and its last alternative, where they are dropped. -/
theorem readAlternatives_trim (s : Text) : readAlternatives (Text.trim s) = readAlternatives s := by
  obtain ⟨front, back, hs, hfront, hback⟩ := Text.exists_trim s
  rw [hs, readAlternatives_append_blank _ hback, readAlternatives_of_blank_append hfront, ← hs]

/-- A constraint is its text without the blanks around it, and the groups of its alternatives. -/
theorem parse_eq_ok_iff {s : String} {c : Constraint} :
    parse s = .ok c ↔ readAlternatives s.toList = .ok c.groups ∧ c.text = textOf s := by
  obtain ⟨groups, text⟩ := c
  rw [← readAlternatives_trim, parse, textOf, trimmed]
  cases htrim : Text.trim s.toList with
  | nil =>
    have hnone : readAlternatives [] = .error .emptyAlternative := rfl
    simp [hnone, bind, Except.bind, throw, throwThe, MonadExceptOf.throw]
  | cons d text =>
    simp only [List.isEmpty_cons, readAlternatives]
    cases h : (alternatives (d :: text)).mapM parseAlternative with
    | error e => simp [bind, Except.bind]
    | ok groups => simp [bind, Except.bind, pure, Except.pure, eq_comm]

theorem exists_parse_iff {s : String} :
    (∃ c, parse s = .ok c) ↔ ∃ groups, readAlternatives s.toList = .ok groups :=
  ⟨fun ⟨c, hc⟩ => ⟨c.groups, (parse_eq_ok_iff.mp hc).1⟩,
    fun ⟨groups, h⟩ => ⟨⟨groups, textOf s⟩, parse_eq_ok_iff.mpr ⟨h, rfl⟩⟩⟩

theorem groups_ne_nil {s : String} {c : Constraint} (h : parse s = .ok c) : c.groups ≠ [] := by
  obtain ⟨part, hpart⟩ := List.exists_mem_of_ne_nil _ (alternatives_ne_nil s.toList)
  obtain ⟨group, hgroup, -⟩ := (exists_of_mapM_eq_ok (parse_eq_ok_iff.mp h).1).1 part hpart
  exact List.ne_nil_of_mem hgroup

/-- What holds of every hyphen range, and of the terms of a text, holds of the terms of its
constraint. -/
theorem forall_terms_of_parse {s : String} {c : Constraint} (h : parse s = .ok c)
    {p : Term → Prop} (hhyphen : ∀ low high t, parseHyphen low high = .ok t → p t)
    (hterm : ∀ part ∈ alternatives s.toList, ∀ text ∈ termTexts part, ∀ t,
      parseTerm text = .ok t → p t) : ∀ group ∈ c.groups, ∀ t ∈ group, p t := by
  intro group hgroup
  obtain ⟨part, hpart, hread⟩ := (exists_of_mapM_eq_ok (parse_eq_ok_iff.mp h).1).2 group hgroup
  by_cases hhyphenated : IsHyphenated part
  · obtain ⟨low, high, t, ht, rfl⟩ := exists_of_isHyphenated hhyphenated hread
    simpa using hhyphen low high t ht
  · obtain ⟨-, hterms⟩ := (parseAlternative_eq_ok_iff hhyphenated).mp hread
    intro t ht
    obtain ⟨text, htext, hparse⟩ := (exists_of_mapM_eq_ok hterms).2 t ht
    exact hterm part hpart text htext t hparse

theorem readAlternatives_of_no_bar {s : Text} (hs : '|' ∉ s) {groups : List (List Term)} :
    readAlternatives s = .ok groups ↔ ∃ group, parseAlternative s = .ok group ∧ groups = [group] := by
  rw [readAlternatives, alternatives_of_no_bar fun c hc h => hs (h ▸ hc), mapM_cons_eq_ok_iff]
  simp [pure_eq_ok]

theorem readAlternatives_of_nil_mem {s : Text} (hs : [] ∈ alternatives s)
    {groups : List (List Term)} : readAlternatives s ≠ .ok groups := by
  intro h
  obtain ⟨group, -, hgroup⟩ := (exists_of_mapM_eq_ok h).1 [] hs
  cases hgroup

/-- Alternatives with two bars between them are read if those on both sides are. -/
theorem readAlternatives_append_bars {s r : Text} {groups : List (List Term)} :
    readAlternatives (s ++ '|' :: '|' :: r) = .ok groups ↔
      ∃ front back, readAlternatives s = .ok front ∧ readAlternatives r = .ok back ∧
        groups = front ++ back := by
  by_cases hs : s.getLast? = some '|'
  · obtain ⟨front, rfl⟩ := List.getLast?_eq_some_iff.mp hs
    have hs := nil_mem_alternatives (s := front) (.inl rfl)
    have hsr := nil_mem_alternatives (s := front) (.inr ⟨r, rfl⟩)
    constructor
    · intro h
      rw [List.append_assoc] at h
      exact absurd h (readAlternatives_of_nil_mem (List.mem_of_mem_tail hsr))
    · rintro ⟨_, _, h, -, -⟩
      exact absurd h (readAlternatives_of_nil_mem (List.mem_of_mem_tail hs))
  · rw [readAlternatives, alternatives_append_bars hs, mapM_append_eq_ok_iff]
    rfl

end Constraint

end ExtensionAudit
