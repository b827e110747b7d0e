import ExtensionAudit.Proofs.Files.Listing
/-
  The order of paths. Paths are ordered by their components, and the first component
  in which two differ decides; so what lies in one directory comes as its names do,
  and all that lies below one directory comes before all that lies below the next.

  Main statements: `components_foldl_join`, `IsBefore.of_front`,
  `components_eq_of_pairwise` and `pairwise_dropRepeated`.
-/

namespace ExtensionAudit

namespace Path

open FileSystem (nameLe nameLe_trans nameLe_total nameLe_antisymm componentsLe_append)

variable {p q r : Path} {ps qs : List Path} {name : Text}

/-! ## The order of components -/

namespace Component

theorem le_of_rank {a b : Component} (h : a.rank < b.rank) : a.le b = true ∧ b.le a = false := by
  cases a <;> cases b <;> simp [rank, le] at h ⊢

theorem rank_le_of_le {a b : Component} (h : a.le b = true) : a.rank ≤ b.rank := by
  apply Nat.not_lt.mp
  intro hlt
  rw [(le_of_rank hlt).2] at h
  cases h

theorem eq_or_names {a b : Component} (h : a.rank = b.rank) :
    a = b ∨ ∃ m n, a = .normal m ∧ b = .normal n := by
  cases a <;> cases b <;> simp [rank] at h ⊢

theorem le_refl (a : Component) : a.le a = true := by
  cases a <;> simp [le, Text.isBefore_self]

theorem le_total (a b : Component) : (a.le b || b.le a) = true := by
  rcases Nat.lt_trichotomy a.rank b.rank with h | h | h
  · simp [(le_of_rank h).1]
  · obtain rfl | ⟨m, n, rfl, rfl⟩ := eq_or_names h
    · simp [le_refl]
    · exact nameLe_total m n
  · simp [(le_of_rank h).1]

theorem le_antisymm {a b : Component} (h : a.le b = true) (h' : b.le a = true) : a = b := by
  obtain rfl | ⟨m, n, rfl, rfl⟩ := eq_or_names
    (Nat.le_antisymm (rank_le_of_le h) (rank_le_of_le h'))
  · rfl
  · rw [nameLe_antisymm m n h h']

theorem le_trans {a b c : Component} (h : a.le b = true) (h' : b.le c = true) :
    a.le c = true := by
  have hab := rank_le_of_le h
  have hbc := rank_le_of_le h'
  by_cases hlt : a.rank < c.rank
  · exact (le_of_rank hlt).1
  · -- all three are of one kind
    have hab : a.rank = b.rank := by omega
    have hbc : b.rank = c.rank := by omega
    obtain rfl | ⟨m, n, rfl, rfl⟩ := eq_or_names hab
    · exact h'
    · obtain rfl | ⟨-, k, -, rfl⟩ := eq_or_names hbc
      · exact h
      · exact nameLe_trans m n k h h'

end Component

theorem componentsLe_total (as bs : List Component) :
    (componentsLe as bs || componentsLe bs as) = true := by
  induction as generalizing bs with
  | nil => rfl
  | cons a as ih =>
    cases bs with
    | nil => rfl
    | cons b bs =>
      rw [componentsLe, componentsLe]
      by_cases hab : a = b
      · rw [if_pos hab, if_pos hab.symm]
        exact ih bs
      · rw [if_neg hab, if_neg (Ne.symm hab)]
        exact Component.le_total a b

theorem componentsLe_antisymm {as bs : List Component} (h : componentsLe as bs = true)
    (h' : componentsLe bs as = true) : as = bs := by
  induction as generalizing bs with
  | nil =>
    cases bs with
    | nil => rfl
    | cons b bs => cases h'
  | cons a as ih =>
    cases bs with
    | nil => cases h
    | cons b bs =>
      rw [componentsLe] at h h'
      by_cases hab : a = b
      · rw [if_pos hab] at h
        rw [if_pos hab.symm] at h'
        rw [hab, ih h h']
      · rw [if_neg hab] at h
        rw [if_neg (Ne.symm hab)] at h'
        exact absurd (Component.le_antisymm h h') hab

theorem componentsLe_trans {as bs cs : List Component} (h : componentsLe as bs = true)
    (h' : componentsLe bs cs = true) : componentsLe as cs = true := by
  induction as generalizing bs cs with
  | nil => rfl
  | cons a as ih =>
    cases bs with
    | nil => cases h
    | cons b bs =>
      cases cs with
      | nil => cases h'
      | cons c cs =>
        rw [componentsLe] at h h' ⊢
        by_cases hab : a = b
        · subst hab
          rw [if_pos rfl] at h
          by_cases hac : a = c
          · rw [if_pos hac] at h' ⊢
            exact ih h h'
          · rw [if_neg hac] at h' ⊢
            exact h'
        · rw [if_neg hab] at h
          by_cases hbc : b = c
          · subst hbc
            rw [if_neg hab]
            exact h
          · rw [if_neg hbc] at h'
            rw [if_neg]
            · exact Component.le_trans h h'
            · rintro rfl
              exact hab (Component.le_antisymm h h')

/-- What comes behind components of one length does not matter where those differ. -/
theorem componentsLe_of_front {as bs : List Component} (hlength : as.length = bs.length)
    (hne : as ≠ bs) (cs ds : List Component) :
    componentsLe (as ++ cs) (bs ++ ds) = componentsLe as bs := by
  induction as generalizing bs with
  | nil => exact absurd (List.length_eq_zero_iff.mp hlength.symm).symm hne
  | cons a as ih =>
    cases bs with
    | nil => cases hlength
    | cons b bs =>
      rw [List.cons_append, List.cons_append, componentsLe, componentsLe]
      by_cases hab : a = b
      · subst hab
        rw [if_pos rfl, if_pos rfl]
        exact ih (Nat.succ_inj.mp hlength) fun heq => hne (by rw [heq])
      · rw [if_neg hab, if_neg hab]

/-! ## The order of paths -/

/-- Whether a path comes in front of another one, component by component. -/
def IsBefore (p q : Path) : Prop := q.le p = false

instance (p q : Path) : Decidable (p.IsBefore q) := inferInstanceAs (Decidable (_ = _))

theorem le_total (p q : Path) : (p.le q || q.le p) = true := componentsLe_total _ _

theorem le_trans (p q r : Path) (h : p.le q = true) (h' : q.le r = true) : p.le r = true :=
  componentsLe_trans h h'

theorem isBefore_iff : p.IsBefore q ↔ p.le q = true ∧ p.components ≠ q.components := by
  unfold IsBefore
  constructor
  · intro h
    have htotal := p.le_total q
    rw [h, Bool.or_false] at htotal
    refine ⟨htotal, fun heq => ?_⟩
    have hboth : q.le p = p.le q := by rw [le, le, heq]
    rw [h, htotal] at hboth
    cases hboth
  · rintro ⟨hle, hne⟩
    rw [Bool.eq_false_iff]
    exact fun hge => hne (componentsLe_antisymm hle hge)

/-- Paths below different directories come as the directories do. -/
theorem IsBefore.of_front {above above' : Path} {cs ds : List Component}
    (h : above.IsBefore above') (hlength : above.components.length = above'.components.length)
    (hp : p.components = above.components ++ cs) (hq : q.components = above'.components ++ ds) :
    p.IsBefore q := by
  have hne := (isBefore_iff.mp h).2
  rw [IsBefore, le, hp, hq, componentsLe_of_front hlength.symm hne.symm]
  exact h

/-- Paths in order and each once are known by which there are. -/
theorem components_eq_of_pairwise (hps : ps.Pairwise IsBefore) (hqs : qs.Pairwise IsBefore)
    (h : ∀ cs, cs ∈ ps.map components ↔ cs ∈ qs.map components) :
    ps.map components = qs.map components := by
  have hnodup {rs : List Path} (hrs : rs.Pairwise IsBefore) : (rs.map components).Nodup :=
    List.pairwise_map.mpr (hrs.imp fun hab => (isBefore_iff.mp hab).2)
  have hsorted {rs : List Path} (hrs : rs.Pairwise IsBefore) :
      (rs.map components).Pairwise fun cs ds => componentsLe cs ds = true :=
    List.pairwise_map.mpr (hrs.imp fun hab => (isBefore_iff.mp hab).1)
  refine List.Perm.eq_of_pairwise (fun _ _ _ _ => componentsLe_antisymm) (hsorted hps)
    (hsorted hqs) ?_
  exact (List.perm_ext_iff_of_nodup (hnodup hps) (hnodup hqs)).mpr h

/-! ## Components of joined paths -/

theorem components_eq (p : Path) : p.components = p.start ++ p.steps := rfl

theorem start_of_pieces {piece : Text} {more : List Text} (h : p.pieces = piece :: more) :
    p.start =
      if p.isAbsolute then [.root] else if piece = ['.'] then [.current] else [] := by
  rw [start, h]
  split
  · rfl
  · by_cases hdot : piece = ['.']
    · subst hdot
      rfl
    · rw [if_neg hdot]
      split
      · rename_i heq
        exact absurd (List.cons.inj heq).1 hdot
      · rfl

theorem start_join (hp : p.text ≠ []) (hq : q.isAbsolute = false) :
    (p.join q).start = p.start := by
  obtain ⟨front, hjoin, hfront⟩ := exists_pieces_join hp hq
  cases front with
  | nil =>
    -- only the empty path has nothing but an empty piece
    rcases hfront with hfront | hfront
    · exact absurd hfront p.pieces_ne_nil
    · have htext := FileSystem.flatMap_pieces p
      rw [hfront] at htext
      simp only [List.nil_append, List.flatMap_cons, List.flatMap_nil, List.append_nil] at htext
      exact absurd (List.cons.inj htext).2.symm hp
  | cons piece front =>
    rw [start_of_pieces hjoin, isAbsolute_join_eq hp hq]
    rcases hfront with hfront | hfront
    · rw [start_of_pieces hfront]
    · rw [start_of_pieces hfront]

theorem components_join_name (hp : p.text ≠ []) (hslash : '/' ∉ name)
    (hname : componentOf? name = some (.normal name)) :
    (p.join ⟨name⟩).components = p.components ++ [.normal name] := by
  have hrelative := isAbsolute_of_slash_not_mem hslash
  rw [components_eq, components_eq, start_join hp hrelative, steps_join hp hrelative,
    steps_of_name hslash hname, List.append_assoc]

/-- Names joined one after another are the last components. -/
theorem components_foldl_join {names : List Text} (hp : p.text ≠ [])
    (hnames : ∀ n ∈ names, FileSystem.IsEntryName n) :
    (names.foldl (fun q name => q.join ⟨name⟩) p).components =
      p.components ++ names.map .normal := by
  induction names generalizing p with
  | nil => simp
  | cons n names ih =>
    obtain ⟨hn, hnames⟩ := List.forall_mem_cons.mp hnames
    have hrelative := isAbsolute_of_slash_not_mem hn.slash
    rw [List.foldl_cons, ih (text_join_ne_nil hp hrelative) hnames,
      components_join_name hp hn.slash hn.component, List.append_assoc]
    rfl

end Path

namespace FileSystem

open ExtensionAudit.Path

variable {ps : List Path}

/-! ## Each once -/

theorem same_iff {p q : Path} : p.same q = true ↔ p.components = q.components := by
  rw [same, beq_iff_eq]

theorem components_mem_dropRepeated (ps : List Path) (cs : List Component) :
    cs ∈ (dropRepeated ps).map components ↔ cs ∈ ps.map components := by
  induction ps using dropRepeated.induct with
  | case1 p q rest hsame ih =>
    rw [dropRepeated, if_pos hsame, ih]
    simp only [List.map_cons, List.mem_cons, same_iff.mp hsame, or_self_left]
  | case2 p q rest hsame ih =>
    rw [dropRepeated, if_neg hsame, List.map_cons, List.mem_cons, ih, ← List.mem_cons]
    rfl
  | case3 ps hshort =>
    rw [dropRepeated]
    exact hshort

/-- Paths in order are strictly in order once repeated ones are dropped. -/
theorem pairwise_dropRepeated (h : ps.Pairwise fun p q => p.le q = true) :
    (dropRepeated ps).Pairwise IsBefore := by
  induction ps using dropRepeated.induct with
  | case1 p q rest hsame ih =>
    rw [dropRepeated, if_pos hsame]
    obtain ⟨hp, hrest⟩ := List.pairwise_cons.mp h
    exact ih (List.pairwise_cons.mpr
      ⟨fun r hr => hp r (List.mem_cons_of_mem _ hr), (List.pairwise_cons.mp hrest).2⟩)
  | case2 p q rest hsame ih =>
    rw [dropRepeated, if_neg hsame]
    obtain ⟨hp, hrest⟩ := List.pairwise_cons.mp h
    refine List.pairwise_cons.mpr ⟨fun r hr => ?_, ih hrest⟩
    -- `q` comes strictly behind `p`, and nothing of the rest comes in front of `q`
    obtain ⟨r', hr', hcomponents⟩ := List.mem_map.mp
      ((components_mem_dropRepeated _ _).mp (List.mem_map_of_mem (f := components) hr))
    have hpq : p.IsBefore q := isBefore_iff.mpr
      ⟨hp q List.mem_cons_self, fun heq => hsame (same_iff.mpr heq)⟩
    have hqr : q.le r' = true := by
      rcases List.mem_cons.mp hr' with rfl | hr'
      · have htotal := r'.le_total r'
        rwa [Bool.or_self] at htotal
      · exact (List.pairwise_cons.mp hrest).1 r' hr'
    rw [IsBefore, le, ← hcomponents, ← le, Bool.eq_false_iff]
    intro hrp
    exact Bool.false_ne_true (hpq.symm.trans (Path.le_trans q r' p hqr hrp))
  | case3 ps hshort =>
    rw [dropRepeated]
    · cases ps with
      | nil => exact .nil
      | cons p rest =>
        cases rest with
        | nil => exact List.pairwise_singleton _ _
        | cons q rest => exact absurd rfl (hshort p q rest)
    · exact hshort

theorem pairwise_dropRepeated_mergeSort (ps : List Path) :
    (dropRepeated (ps.mergeSort Path.le)).Pairwise IsBefore :=
  pairwise_dropRepeated (List.pairwise_mergeSort Path.le_trans Path.le_total ps)

end FileSystem

end ExtensionAudit
