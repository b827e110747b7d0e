import ExtensionAudit.Proofs.Markup.Rereading
/-
  Opaque constructs: Twig constructs and comments that hold their terminator at
  their end only. They are read as text wherever a token begins. A template that
  was read ends at such a place, unless a `{` at its end could belong to an
  opener; behind the construct, reading goes on where the plain text that follows
  it ends.

  Main statement: `tokens_around_opaque`, the tokens of a template with an opaque
  construct in it.
-/

namespace ExtensionAudit

namespace Text

theorem splitAfterOnto_first {stop m : Text} (hstop : stop ≠ [])
    (h : ¬stop <:+: m ++ stop.dropLast) (seen b : Text) :
    splitAfterOnto stop seen (m ++ (stop ++ b)) = some (seen.reverse ++ m ++ stop, b) := by
  have hself : strip? stop (stop ++ b) = some b := strip?_eq_some_iff.mpr rfl
  induction m generalizing seen with
  | nil =>
    obtain ⟨d, stop', rfl⟩ := List.exists_cons_of_ne_nil hstop
    rw [List.cons_append] at hself
    simp [splitAfterOnto, hself]
  | cons c m ih =>
    have hnone : strip? stop (c :: (m ++ (stop ++ b))) = none := by
      rw [strip?_eq_none_iff]
      intro hp
      -- a terminator at the front would end before the last character of the one behind `m`
      have hlen : stop.length ≤ (c :: m ++ stop.dropLast).length := by
        simp only [List.length_append, List.length_cons, List.length_dropLast]
        omega
      have hlast : c :: (m ++ (stop ++ b)) =
          (c :: m ++ stop.dropLast) ++ (stop.getLast hstop :: b) := by
        have hstop' := List.dropLast_concat_getLast hstop
        calc c :: (m ++ (stop ++ b))
          _ = c :: m ++ (stop.dropLast ++ [stop.getLast hstop] ++ b) := by
            rw [hstop', List.cons_append]
          _ = _ := by simp
      rw [hlast] at hp
      exact h (List.prefix_of_prefix_length_le hp (List.prefix_append _ _) hlen).isInfix
    have hrest : ¬stop <:+: m ++ stop.dropLast := fun hi => h (hi.trans ⟨[c], [], by simp⟩)
    rw [List.cons_append, splitAfterOnto, hnone]
    simp [ih hrest]

theorem not_infix_concat {stop x : Text} {c : Char} (h : ¬stop <:+: x) (hstop : stop ≠ [])
    (hc : stop.getLast? ≠ some c) : ¬stop <:+: x ++ [c] := by
  rw [List.infix_concat_iff, not_or]
  refine ⟨fun hs => ?_, h⟩
  rcases List.suffix_concat_iff.mp hs with rfl | ⟨t, rfl, -⟩
  · exact hstop rfl
  · simp at hc

end Text

namespace Markup

theorem Verbatim.take_first {v : Verbatim} {opener m : Text} (hskip : opener.length = v.skip)
    (hstop : v.stop ≠ []) (h : ¬v.stop <:+: m ++ v.stop.dropLast) (b : Text) :
    v.take (opener ++ (m ++ (v.stop ++ b))) = .ok (opener ++ (m ++ v.stop), b) := by
  have hcut : Text.splitAfter v.stop (m ++ (v.stop ++ b)) = some (m ++ v.stop, b) := by
    exact Text.splitAfterOnto_first hstop h [] b
  unfold Verbatim.take
  rw [List.drop_left' hskip, List.take_left' hskip, hcut]

/-- A Twig construct or a comment that holds its terminator at its end only. A comment does not
begin with what would make a terminator of its opener. -/
inductive Opaque : Text → Prop where
  | twigExpression {x : Text} : ¬['}', '}'] <:+: x → Opaque ('{' :: '{' :: (x ++ ['}', '}']))
  | twigTag {x : Text} : ¬['%', '}'] <:+: x → Opaque ('{' :: '%' :: (x ++ ['%', '}']))
  | twigComment {x : Text} : ¬['#', '}'] <:+: x → Opaque ('{' :: '#' :: (x ++ ['#', '}']))
  | comment {x : Text} : ¬['-', '-', '>'] <:+: x → ¬['>'] <+: x → ¬['-', '>'] <+: x →
      Opaque ('<' :: '!' :: '-' :: '-' :: (x ++ ['-', '-', '>']))

/-! ## What is taken of an opaque construct -/

theorem readsBefore_first {v : Verbatim} (opener : Text) {m : Text} {c : Char} {r : Text}
    (hfront : ∀ rest, front (c :: (r ++ rest)) = .verbatim v)
    (hopen : c :: r = opener ++ (m ++ v.stop)) (hskip : opener.length = v.skip)
    (h : ¬v.stop <:+: m ++ v.stop.dropLast) (rest : Text) :
    (Token.text (c :: r)).ReadsBefore rest := by
  have htake := Verbatim.take_first hskip (front_verbatim (hfront [])) h rest
  rw [← List.append_assoc m, ← List.append_assoc opener, ← hopen] at htake
  exact readsBefore_of_take (hfront rest) htake rest

theorem not_infix_opener {x : Text} (hx : ¬['-', '-', '>'] <:+: x) (hgt : ¬['>'] <+: x)
    (harrow : ¬['-', '>'] <+: x) : ¬['-', '-', '>'] <:+: ['<', '!', '-', '-'] ++ x := by
  rw [List.infix_append_iff]
  rintro (hopener | hi | ⟨l₁, l₂, heq, hsuffix, hprefix⟩)
  · exact absurd hopener (by decide)
  · exact hx hi
  · match l₁, heq with
    | [], heq =>
      rw [List.nil_append] at heq
      exact hx (heq ▸ hprefix.isInfix)
    | [_], heq =>
      obtain rfl : l₂ = ['-', '>'] := by simpa using (List.cons_eq_cons.mp heq).2.symm
      exact harrow hprefix
    | [_, _], heq =>
      obtain ⟨-, -, rfl⟩ : _ ∧ _ ∧ l₂ = ['>'] := by simpa using heq.symm
      exact hgt hprefix
    | c :: d :: e :: l₁, heq =>
      -- the whole terminator is no end of the opener
      obtain ⟨-, -, rfl, -⟩ : _ ∧ _ ∧ e = '>' ∧ _ := by simpa using heq.symm
      have hmem : '>' ∈ ['<', '!', '-', '-'] := hsuffix.subset (by simp)
      exact absurd hmem (by decide)

/-- An opaque construct is read as text. A `}` in front of the terminator of an expression is
taken for the first character of that terminator, and its last character is left. -/
theorem Opaque.reads {o : Text} (h : Opaque o) :
    ∃ a z, o = a ++ z ∧ a ≠ [] ∧ (∀ c ∈ z, isPlain c = true) ∧
      ∀ rest, (Token.text a).ReadsBefore rest := by
  cases h with
  | @twigExpression x hx =>
    by_cases hend : ∃ y, x = y ++ ['}']
    · obtain ⟨y, rfl⟩ := hend
      refine ⟨'{' :: '{' :: (y ++ ['}', '}']), ['}'], by simp, by simp, by simp [isPlain], ?_⟩
      exact readsBefore_first ['{', '{'] (fun _ => rfl) rfl rfl hx
    · refine ⟨_, [], (List.append_nil _).symm, by simp, by simp, ?_⟩
      refine readsBefore_first ['{', '{'] (fun _ => rfl) rfl rfl fun hi => ?_
      -- a terminator that ends with the first `}` behind `x` begins with the last one of `x`
      rcases List.infix_concat_iff.mp hi with hs | hi
      · obtain ⟨y, hy⟩ := hs
        exact hend ⟨y, List.append_cancel_right (by simpa using hy.symm)⟩
      · exact hx hi
  | @twigTag x hx =>
    refine ⟨_, [], (List.append_nil _).symm, by simp, by simp, ?_⟩
    refine readsBefore_first ['{', '%'] (fun _ => rfl) rfl rfl ?_
    exact Text.not_infix_concat hx (by simp) (by decide)
  | @twigComment x hx =>
    refine ⟨_, [], (List.append_nil _).symm, by simp, by simp, ?_⟩
    refine readsBefore_first ['{', '#'] (fun _ => rfl) rfl rfl ?_
    exact Text.not_infix_concat hx (by simp) (by decide)
  | @comment x hx hgt harrow =>
    refine ⟨_, [], (List.append_nil _).symm, by simp, by simp, ?_⟩
    have hopener := not_infix_opener hx hgt harrow
    have hdash := Text.not_infix_concat hopener (by simp) (c := '-') (by decide)
    have hdashes := Text.not_infix_concat hdash (by simp) (c := '-') (by decide)
    exact readsBefore_first [] (m := ['<', '!', '-', '-'] ++ x) (fun _ => rfl) rfl rfl
      (by simpa using hdashes)

/-! ## Where a token begins -/

def EndsPlain (s : Text) : Prop := s.head? = some '{' ∨ s.head? = some '<'

theorem Opaque.ne_nil {o : Text} (h : Opaque o) : o ≠ [] := by
  cases h <;> simp

theorem Opaque.endsPlain {o : Text} (h : Opaque o) (q : Text) : EndsPlain (o ++ q) := by
  cases h with
  | comment => exact .inr rfl
  | _ => exact .inl rfl

theorem front_plain_opener {c : Char} {r s : Text} (hs : EndsPlain s)
    (hend : (c :: r).getLast? ≠ some '{') (h : front (c :: r) = .plain) :
    front (c :: (r ++ s)) = .plain := by
  have htwig : twig? (c :: (r ++ s)) = none := by
    cases r with
    | nil => exact twig?_of_ne_brace (by simpa using hend)
    | cons d r =>
      rw [List.cons_append, twig?_cons_cons c d _ r]
      cases ht : twig? (c :: d :: r) with
      | none => rfl
      | some v => simp [front, ht] at h
  rw [front_eq_tagFront (by simp [h]), tagFront_eq_plain_iff] at h
  simp only [front, htwig, tagFront_eq_plain_iff]
  intro hc
  obtain ⟨hbang, hquestion, halpha, hslash⟩ := h hc
  -- neither `{` nor `<` makes a tag of a `<` or of a `</`
  have hhead : s.head? ≠ some '!' ∧ s.head? ≠ some '?' ∧ s.head?.any Char.isAlpha = false ∧
      s.head? ≠ some '/' := by
    rcases hs with hs | hs <;> rw [hs] <;> decide
  rcases r with _ | ⟨d, _ | ⟨e, r⟩⟩
  · obtain ⟨hbang, hquestion, halpha, hslash⟩ := hhead
    exact ⟨hbang, hquestion, halpha, fun h => absurd h hslash⟩
  · exact ⟨hbang, hquestion, halpha, fun _ => hhead.2.2.1⟩
  · exact ⟨hbang, hquestion, halpha, hslash⟩

theorem Token.ReadsBefore.opener {t : Token} {s : Text} (h : t.ReadsBefore [])
    (hend : t.render.getLast? ≠ some '{') (hs : EndsPlain s) : t.ReadsBefore s := by
  cases t with
  | text content =>
    obtain ⟨c, r, rfl, ⟨v, hfront, htake⟩ | ⟨hfront, hplain, -⟩⟩ := readsBefore_text_iff.mp h
    · exact readsBefore_of_take hfront htake s
    · rw [List.append_nil] at hfront
      have hrun : Text.endsRun isPlain s = true := by
        rcases hs with hs | hs <;> rw [Text.endsRun, hs] <;> decide
      exact readsBefore_text_iff.mpr
        ⟨c, r, rfl, .inr ⟨front_plain_opener hs hend hfront, hplain, hrun⟩⟩
  | _ =>
    rw [readsBefore_iff_formed (by simp)] at h ⊢
    exact h

theorem ReadsAll.readsUpTo_opener {ts : List Token} {s : Text} (h : ReadsAll ts)
    (hend : (ts.flatMap Token.render).getLast? ≠ some '{') (hs : EndsPlain s) :
    ReadsUpTo s ts := by
  induction ts with
  | nil => trivial
  | cons t ts ih =>
    obtain ⟨ht, hts⟩ := h
    have hend' : (ts.flatMap Token.render).getLast? ≠ some '{' := by
      intro hlast
      simp [List.getLast?_append, hlast] at hend
    refine ⟨?_, ih hts hend'⟩
    cases hrest : ts.flatMap Token.render with
    | nil =>
      rw [List.flatMap_cons, hrest, List.append_nil] at hend
      rw [hrest] at ht
      exact ht.opener hend hs
    | cons c r =>
      rw [hrest] at ht
      exact readsBefore_of_head?_eq ht rfl

/-! ## Reading on behind a construct -/

def plainToken (s : Text) : List Token := if s.isEmpty then [] else [.text s]

theorem tokens_plain (s : Text) :
    tokens s = (tokens (s.dropWhile isPlain)).map (plainToken (s.takeWhile isPlain) ++ ·) := by
  cases s with
  | nil => simp [tokens, tokensOnto, plainToken, Except.map]
  | cons c r =>
    cases hc : isPlain c with
    | false =>
      rw [List.dropWhile_cons_of_neg (by simp [hc]), List.takeWhile_cons_of_neg (by simp [hc])]
      cases tokens (c :: r) <;> rfl
    | true =>
      have hne : c ≠ '<' ∧ c ≠ '{' := by simpa [isPlain] using hc
      have hfront : front (c :: r) = .plain := by
        rw [front, twig?_of_ne_brace hne.2]
        exact tagFront_eq_plain_iff.mpr fun h => absurd h hne.1
      have hstep : step c r = .ok (.text (c :: r.takeWhile isPlain), r.dropWhile isPlain) := by
        simp [step, hfront]
      rw [tokens, tokensOnto_step hstep, tokensOnto_eq, List.dropWhile_cons_of_pos hc,
        List.takeWhile_cons_of_pos hc]
      rfl

/-- An opaque construct is text, in one piece with the plain text behind it. What is in front
of it and what follows is read as if it was not there. -/
theorem tokens_around_opaque {p o : Text} {ts : List Token} (hp : tokens p = .ok ts)
    (hend : p.getLast? ≠ some '{') (ho : Opaque o) (q : Text) :
    ∃ contents : List Text, contents.flatten = o ++ q.takeWhile isPlain ∧
      (∀ content ∈ contents, content ≠ []) ∧
      tokens (p ++ (o ++ q)) =
        (tokens (q.dropWhile isPlain)).map (ts ++ contents.map .text ++ ·) := by
  obtain ⟨rfl, hread⟩ := tokens_eq_ok_iff.mp hp
  obtain ⟨a, z, rfl, ha, hz, hreads⟩ := ho.reads
  obtain ⟨c, r, rfl⟩ := List.exists_cons_of_ne_nil ha
  have hstep : step c (r ++ (z ++ q)) = .ok (.text (c :: r), z ++ q) :=
    step_eq_ok_iff.mpr ⟨rfl, hreads (z ++ q)⟩
  have hrest : tokens (z ++ q) = (tokens (q.dropWhile isPlain)).map
      (plainToken (z ++ q.takeWhile isPlain) ++ ·) := by
    rw [tokens_plain, List.dropWhile_append_of_pos hz, List.takeWhile_append_of_pos hz]
  have htokens : tokens (ts.flatMap Token.render ++ (c :: r ++ z ++ q)) =
      (tokens (q.dropWhile isPlain)).map
        (ts ++ .text (c :: r) :: plainToken (z ++ q.takeWhile isPlain) ++ ·) := by
    rw [(hread.readsUpTo_opener hend (ho.endsPlain q)).tokens, List.append_assoc,
      List.cons_append, tokens, tokensOnto_step hstep, tokensOnto_eq, hrest]
    cases tokens (q.dropWhile isPlain) <;> simp [Except.map]
  -- behind the construct stands plain text, or the next token follows at once
  cases hw : z ++ q.takeWhile isPlain with
  | nil =>
    refine ⟨[c :: r], ?_, by simp, ?_⟩
    · rw [List.append_assoc, hw]
      rfl
    · rw [htokens, hw]
      rfl
  | cons d w =>
    refine ⟨[c :: r, d :: w], ?_, by simp, ?_⟩
    · rw [List.append_assoc, hw]
      simp
    · rw [htokens, hw]
      rfl

end Markup

end ExtensionAudit
