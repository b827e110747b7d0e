import ExtensionAudit.Proofs.Files.Resolving
/-
  Paths put together. The steps of a path are the components behind its root.
  Joining a relative path appends its steps, and the path above one has all of its
  steps but the last.

  Main statements: `steps_join`, `exists_parent?` and `steps_withFileName`.
-/

namespace ExtensionAudit

namespace Path

variable {p q : Path} {name : Text}

/-- The components of a path behind its root: steps down and up. -/
def steps (p : Path) : List Component := p.pieces.filterMap componentOf?

theorem pieces_ne_nil (p : Path) : p.pieces ≠ [] := Text.splitAt_ne_nil _ _

theorem splitAt_of_slash_not_mem (h : '/' ∉ name) : Text.splitAt (· == '/') name = [name] :=
  Text.splitAt_of_not_sep fun c hc => by
    rw [beq_eq_false_iff_ne]
    rintro rfl
    exact h hc

theorem slash_not_mem_of_mem_pieces {piece : Text} (h : piece ∈ p.pieces) : '/' ∉ piece := by
  intro hmem
  have hsep := Text.not_sep_of_mem_splitAt h hmem
  simp at hsep

theorem isAbsolute_iff : p.isAbsolute = true ↔ ∃ rest, p.text = '/' :: rest := by
  unfold isAbsolute
  split
  · rename_i rest heq
    exact ⟨fun _ => ⟨rest, heq⟩, fun _ => rfl⟩
  · rename_i hno
    exact ⟨nofun, fun ⟨rest, heq⟩ => (hno rest heq).elim⟩

theorem isAbsolute_of_slash_not_mem (h : '/' ∉ name) : isAbsolute ⟨name⟩ = false := by
  rw [Bool.eq_false_iff, ne_eq, isAbsolute_iff]
  rintro ⟨rest, rfl⟩
  exact h List.mem_cons_self

theorem filterMap_of_isEmpty {parts : List Text} (h : parts.all (·.isEmpty) = true) :
    parts.filterMap componentOf? = [] := by
  rw [List.filterMap_eq_nil_iff]
  intro piece hpiece
  obtain rfl := List.isEmpty_iff.mp (List.all_eq_true.mp h piece hpiece)
  rfl

theorem componentOf?_of_ne_nil (hne : name ≠ []) :
    name = ['.'] ∨ name = ['.', '.'] ∨ componentOf? name = some (.normal name) := by
  by_cases hdot : name = ['.']
  · exact .inl hdot
  by_cases hdots : name = ['.', '.']
  · exact .inr (.inl hdots)
  exact .inr (.inr (by simp [componentOf?, hne, hdot, hdots]))

/-- Empty pieces at the end of a path are no steps; the piece in front of them is its last. -/
theorem exists_pieces_of_dropWhile {above : List Text}
    (h : p.pieces.reverse.dropWhile (·.isEmpty) = name :: above.reverse) :
    name ≠ [] ∧ (∃ idle, p.pieces = above ++ name :: idle) ∧
      p.steps = above.filterMap componentOf? ++ [name].filterMap componentOf? := by
  have hhead := List.head?_dropWhile_not (·.isEmpty) p.pieces.reverse
  have hsplit := List.takeWhile_append_dropWhile (p := (·.isEmpty)) (l := p.pieces.reverse)
  rw [h] at hhead hsplit
  have hpieces : p.pieces =
      above ++ name :: (p.pieces.reverse.takeWhile (·.isEmpty)).reverse := by
    simpa using congrArg List.reverse hsplit.symm
  have hidle : (p.pieces.reverse.takeWhile (·.isEmpty)).reverse.filterMap componentOf? = [] :=
    filterMap_of_isEmpty (by rw [List.all_reverse]; exact List.all_takeWhile)
  refine ⟨by simpa using hhead, ⟨_, hpieces⟩, ?_⟩
  rw [steps, hpieces, List.append_cons, List.filterMap_append, hidle, List.append_nil,
    List.filterMap_append]

/-! ## Joining -/

/-- A slash stands between the joined texts, and one at the end of the first is not repeated. -/
theorem exists_text_join (hp : p.text ≠ []) (hq : q.isAbsolute = false) :
    ∃ front, (p.join q).text = front ++ '/' :: q.text ∧
      ((p.text = front ∧ front.getLast? ≠ some '/') ∨ p.text = front ++ ['/']) := by
  unfold join
  rw [hq, if_neg (by simp)]
  by_cases hslash : p.text.getLast? = some '/'
  · obtain ⟨front, hfront⟩ := List.getLast?_eq_some_iff.mp hslash
    exact ⟨front, by simp [hfront], .inr hfront⟩
  · exact ⟨p.text, by simp [hp, hslash], .inl ⟨rfl, hslash⟩⟩

theorem exists_pieces_join (hp : p.text ≠ []) (hq : q.isAbsolute = false) :
    ∃ front, (p.join q).pieces = front ++ q.pieces ∧
      (p.pieces = front ∨ p.pieces = front ++ [[]]) := by
  obtain ⟨front, hjoin, hfront⟩ := exists_text_join hp hq
  refine ⟨Text.splitAt (· == '/') front, ?_, ?_⟩
  · rw [pieces, hjoin, Text.splitAt_append_cons (by simp)]
    rfl
  · rcases hfront with ⟨hfront, -⟩ | hfront
    · left
      rw [pieces, hfront]
    · right
      rw [pieces, hfront, Text.splitAt_concat_of_sep (by simp)]

theorem text_join_ne_nil (hp : p.text ≠ []) (hq : q.isAbsolute = false) :
    (p.join q).text ≠ [] := by
  obtain ⟨front, hjoin, -⟩ := exists_text_join hp hq
  simp [hjoin]

theorem isAbsolute_join (hp : p.isAbsolute = true) (q : Path) : (p.join q).isAbsolute = true := by
  by_cases hq : q.isAbsolute = true
  · simp [join, hq]
  · obtain ⟨rest, hrest⟩ := isAbsolute_iff.mp hp
    obtain ⟨front, hjoin, hfront⟩ :=
      exists_text_join (p := p) (by simp [hrest]) (Bool.eq_false_iff.mpr hq)
    rw [isAbsolute_iff, hjoin]
    cases front with
    | nil => exact ⟨q.text, rfl⟩
    | cons c front =>
      rw [hrest] at hfront
      rcases hfront with ⟨hfront, -⟩ | hfront
      · cases hfront
        exact ⟨_, rfl⟩
      · cases hfront
        exact ⟨_, rfl⟩

theorem isAbsolute_join_eq (hp : p.text ≠ []) (hq : q.isAbsolute = false) :
    (p.join q).isAbsolute = p.isAbsolute := by
  cases habsolute : p.isAbsolute with
  | true => exact isAbsolute_join habsolute q
  | false =>
    rw [Bool.eq_false_iff, ne_eq, isAbsolute_iff] at habsolute ⊢
    rintro ⟨rest, hrest⟩
    obtain ⟨front, hjoin, hfront⟩ := exists_text_join hp hq
    rw [hjoin] at hrest
    cases front with
    | nil =>
      rcases hfront with ⟨hfront, -⟩ | hfront
      · exact hp hfront
      · exact habsolute ⟨[], hfront⟩
    | cons c front =>
      obtain ⟨rfl, -⟩ := List.cons.inj hrest
      rcases hfront with ⟨hfront, -⟩ | hfront
      · exact habsolute ⟨_, hfront⟩
      · exact habsolute ⟨_, hfront⟩

/-- A relative path appends its steps. -/
theorem steps_join (hp : p.text ≠ []) (hq : q.isAbsolute = false) :
    (p.join q).steps = p.steps ++ q.steps := by
  obtain ⟨front, hjoin, hfront⟩ := exists_pieces_join hp hq
  have hidle : componentOf? [] = none := rfl
  unfold steps
  rcases hfront with hfront | hfront
  · rw [hjoin, hfront, List.filterMap_append]
  · rw [hjoin, hfront, List.filterMap_append, List.filterMap_append]
    simp [hidle]

theorem components_of_isAbsolute (hp : p.isAbsolute = true) :
    p.components = .root :: p.steps := by
  rw [components, start, if_pos hp]
  rfl

theorem pieces_of_name (hslash : '/' ∉ name) : pieces ⟨name⟩ = [name] :=
  splitAt_of_slash_not_mem hslash

theorem steps_of_name (hslash : '/' ∉ name) (hname : componentOf? name = some (.normal name)) :
    steps ⟨name⟩ = [.normal name] := by
  simp [steps, pieces_of_name hslash, hname]

theorem exists_pieces_foldl_join {names : List Text} (hp : p.text ≠ []) (hne : names ≠ [])
    (hnames : ∀ n ∈ names, n ≠ [] ∧ '/' ∉ n) :
    ∃ front, (names.foldl (fun q name => q.join ⟨name⟩) p).pieces = front ++ names ∧
      (p.pieces = front ∨ p.pieces = front ++ [[]]) := by
  induction names generalizing p with
  | nil => exact absurd rfl hne
  | cons n names ih =>
    obtain ⟨⟨hn, hslash⟩, hnames⟩ := List.forall_mem_cons.mp hnames
    have hrelative : isAbsolute ⟨n⟩ = false := isAbsolute_of_slash_not_mem hslash
    obtain ⟨front, hpieces, hfront⟩ := exists_pieces_join hp hrelative
    rw [pieces_of_name hslash] at hpieces
    cases names with
    | nil => exact ⟨front, hpieces, hfront⟩
    | cons next rest =>
      obtain ⟨before, hall, hbefore⟩ := ih (text_join_ne_nil hp hrelative) (by simp) hnames
      -- the last piece so far is a name, not the end of a path with a slash
      have hbefore : before = front ++ [n] := by
        rcases hbefore with hbefore | hbefore
        · exact hbefore.symm.trans hpieces
        · obtain ⟨-, hlast⟩ := List.append_inj' (hpieces.symm.trans hbefore) rfl
          exact absurd (List.singleton_inj.mp hlast) hn
      exact ⟨front, by rw [List.foldl_cons, hall, hbefore, List.append_assoc]; rfl, hfront⟩

/-! ## Putting pieces together -/

theorem unpieces_cons_cons (part next : Text) (rest : List Text) :
    unpieces (part :: next :: rest) = part ++ '/' :: unpieces (next :: rest) := by
  simp [unpieces, List.intercalate, List.intersperse]

theorem pieces_unpieces {parts : List Text} (hne : parts ≠ [])
    (hslash : ∀ part ∈ parts, '/' ∉ part) : pieces ⟨unpieces parts⟩ = parts := by
  induction parts with
  | nil => exact absurd rfl hne
  | cons part parts ih =>
    obtain ⟨hpart, hparts⟩ := List.forall_mem_cons.mp hslash
    cases parts with
    | nil =>
      have hone : unpieces [part] = part := by simp [unpieces, List.intercalate]
      rw [hone, pieces_of_name hpart]
    | cons next rest =>
      have hrest := ih (by simp) hparts
      rw [pieces] at hrest ⊢
      rw [unpieces_cons_cons, Text.splitAt_append_cons (by simp), splitAt_of_slash_not_mem hpart,
        hrest]
      rfl

theorem pieces_of_isAbsolute (hp : p.isAbsolute = true) : ∃ rest, p.pieces = [] :: rest := by
  obtain ⟨rest, hrest⟩ := isAbsolute_iff.mp hp
  exact ⟨Text.splitAt (· == '/') rest, by rw [pieces, hrest]; simp [Text.splitAt]⟩

theorem filterMap_dropWhile_idle (parts : List Text) :
    (parts.dropWhile fun piece => (componentOf? piece).isNone).filterMap componentOf? =
      parts.filterMap componentOf? := by
  induction parts with
  | nil => rfl
  | cons part parts ih =>
    rw [List.dropWhile_cons]
    split
    · rename_i hidle
      rw [ih, List.filterMap_cons, Option.isNone_iff_eq_none.mp hidle]
    · rfl

theorem filterMap_dropIdleEnd (parts : List Text) :
    (dropIdleEnd parts).filterMap componentOf? = parts.filterMap componentOf? := by
  rw [dropIdleEnd, List.filterMap_reverse, filterMap_dropWhile_idle, ← List.filterMap_reverse,
    List.reverse_reverse]

theorem componentOf?_last_dropIdleEnd {parts : List Text} {piece : Text}
    (h : (dropIdleEnd parts).getLast? = some piece) : ∃ c, componentOf? piece = some c := by
  rw [dropIdleEnd, List.getLast?_reverse] at h
  have hhead := List.head?_dropWhile_not (fun piece => (componentOf? piece).isNone) parts.reverse
  rw [h] at hhead
  simpa [Option.isSome_iff_exists] using hhead

theorem prefix_of_dropIdleEnd (parts : List Text) : dropIdleEnd parts <+: parts := by
  have hsuffix := List.dropWhile_suffix (l := parts.reverse)
    (fun piece => (componentOf? piece).isNone)
  rw [dropIdleEnd, ← List.reverse_suffix, List.reverse_reverse]
  exact hsuffix

theorem unpieces_cons (part : Text) (parts : List Text) :
    unpieces (part :: parts) = part ++ (parts.map ('/' :: ·)).flatten := by
  induction parts generalizing part with
  | nil => simp [unpieces, List.intercalate]
  | cons next rest ih =>
    rw [unpieces_cons_cons, ih, List.map_cons, List.flatten_cons, List.cons_append]

theorem unpieces_pieces (p : Path) : unpieces p.pieces = p.text := by
  have hrejoin := Text.rejoin_splitAt '/' p.text
  obtain ⟨first, rest, hpieces⟩ := List.exists_cons_of_ne_nil p.pieces_ne_nil
  have hsplit : Text.splitAt (· == '/') p.text = first :: rest := hpieces
  rw [hsplit] at hrejoin
  rw [hpieces, unpieces_cons]
  exact hrejoin

theorem unpieces_isPrefix {parts more : List Text} (h : parts <+: more) :
    unpieces parts <+: unpieces more := by
  obtain ⟨rest, rfl⟩ := h
  cases parts with
  | nil => exact List.nil_prefix
  | cons part parts =>
    rw [List.cons_append, unpieces_cons, unpieces_cons, List.map_append, List.flatten_append,
      ← List.append_assoc]
    exact List.prefix_append _ _

/-! ## The path above -/

theorem trimmedText_isPrefix (p : Path) : p.trimmedText <+: p.text := by
  unfold trimmedText
  split
  · rename_i first rest _ hpieces
    have htext : p.text = unpieces (first :: rest) := by rw [← hpieces, unpieces_pieces]
    split
    · split
      · rename_i habsolute
        obtain ⟨behind, hbehind⟩ := isAbsolute_iff.mp habsolute
        rw [hbehind]
        exact List.cons_prefix_cons.mpr ⟨rfl, List.nil_prefix⟩
      · rw [htext, unpieces_cons]
        exact List.prefix_append _ _
    · rw [htext]
      exact unpieces_isPrefix (List.cons_prefix_cons.mpr ⟨rfl, prefix_of_dropIdleEnd rest⟩)
  · rw [← unpieces_pieces p]
    exact unpieces_isPrefix (prefix_of_dropIdleEnd p.pieces)

theorem isAbsolute_of_prefix {text : Text} (h : text <+: p.text) (hne : text ≠ []) :
    isAbsolute ⟨text⟩ = p.isAbsolute := by
  obtain ⟨c, text, rfl⟩ := List.exists_cons_of_ne_nil hne
  obtain ⟨rest, hrest⟩ := h
  rw [Bool.eq_iff_iff, isAbsolute_iff, isAbsolute_iff, ← hrest]
  simp

theorem isAbsolute_trimmedText (p : Path) : isAbsolute ⟨p.trimmedText⟩ = p.isAbsolute := by
  by_cases hne : p.trimmedText = []
  · rw [hne]
    refine (Bool.eq_false_iff.mpr fun habsolute => ?_).symm
    -- what is left of an absolute path begins with its slash
    obtain ⟨rest, hpieces⟩ := pieces_of_isAbsolute habsolute
    unfold trimmedText at hne
    simp only [start, habsolute, if_true, hpieces] at hne
    split at hne
    · cases hne
    · rename_i hkept
      obtain ⟨piece, kept, heq⟩ := List.exists_cons_of_ne_nil hkept
      rw [heq, unpieces_cons_cons] at hne
      cases hne
  · exact isAbsolute_of_prefix (trimmedText_isPrefix p) hne

theorem steps_unpieces {parts : List Text} (hslash : ∀ part ∈ parts, '/' ∉ part) :
    steps ⟨unpieces parts⟩ = parts.filterMap componentOf? := by
  cases parts with
  | nil => rfl
  | cons part parts => rw [steps, pieces_unpieces (List.cons_ne_nil _ _) hslash]

theorem steps_trimmedText (p : Path) : steps ⟨p.trimmedText⟩ = p.steps := by
  have hkept {parts kept : List Text} (hparts : ∀ part ∈ parts, part ∈ p.pieces)
      (h : kept <+: parts) : ∀ part ∈ kept, '/' ∉ part := fun part hpart =>
    slash_not_mem_of_mem_pieces (hparts part (h.subset hpart))
  unfold trimmedText
  split
  · rename_i first rest _ hpieces
    have hsteps : p.steps = [first].filterMap componentOf? ++
        (dropIdleEnd rest).filterMap componentOf? := by
      rw [steps, hpieces, filterMap_dropIdleEnd, ← List.filterMap_append]
      rfl
    have hslash : ∀ part ∈ first :: dropIdleEnd rest, '/' ∉ part :=
      hkept (by simp [hpieces]) (List.cons_prefix_cons.mpr ⟨rfl, prefix_of_dropIdleEnd rest⟩)
    split
    · rename_i hnone
      rw [hsteps, hnone, List.filterMap_nil, List.append_nil]
      split
      · rename_i habsolute
        obtain ⟨more, hmore⟩ := pieces_of_isAbsolute habsolute
        cases hpieces.symm.trans hmore
        rfl
      · rw [steps, pieces_of_name (hslash first List.mem_cons_self)]
    · rw [steps_unpieces hslash, hsteps, ← List.filterMap_append]
      rfl
  · rw [steps_unpieces (hkept (fun _ => id) (prefix_of_dropIdleEnd p.pieces)),
      filterMap_dropIdleEnd]
    rfl

/-- The pieces of a path without those at its end that stand for nothing: others, then one for the
last step. -/
theorem exists_dropIdleEnd {front : List Component} {c : Component}
    (hsteps : p.steps = front ++ [c]) :
    ∃ shorter last, dropIdleEnd p.pieces = shorter ++ [last] ∧ componentOf? last = some c ∧
      shorter.filterMap componentOf? = front := by
  have hkept : (dropIdleEnd p.pieces).filterMap componentOf? = front ++ [c] := by
    rw [filterMap_dropIdleEnd, ← hsteps, steps]
  rcases List.eq_nil_or_concat (dropIdleEnd p.pieces) with hnil | ⟨shorter, last, hcut⟩
  · rw [hnil] at hkept
    simp at hkept
  · rw [List.concat_eq_append] at hcut
    obtain ⟨d, hd⟩ := componentOf?_last_dropIdleEnd
      (show (dropIdleEnd p.pieces).getLast? = some last by rw [hcut, List.getLast?_concat])
    rw [hcut, List.filterMap_append, List.filterMap_cons, hd, List.filterMap_nil] at hkept
    obtain ⟨hfront, hlast⟩ := List.append_inj' hkept rfl
    exact ⟨shorter, last, hcut, hd.trans (congrArg some (List.singleton_inj.mp hlast)), hfront⟩

/-- The path above another one begins its text and has its steps but the last. -/
theorem exists_parent? {front : List Component} {c : Component}
    (hsteps : p.steps = front ++ [c]) (hc : c ≠ .current) (hc' : c ≠ .root) :
    ∃ above, p.parent? = some above ∧ above.text <+: p.text ∧
      above.isAbsolute = p.isAbsolute ∧ above.steps = front := by
  obtain ⟨shorter, last, hcut, hlast, hfront⟩ := exists_dropIdleEnd hsteps
  have hbegin : shorter ++ [last] <+: p.pieces := hcut ▸ prefix_of_dropIdleEnd p.pieces
  have hslash : ∀ part ∈ shorter, '/' ∉ part := fun part hpart =>
    slash_not_mem_of_mem_pieces (hbegin.subset (List.mem_append_left _ hpart))
  have hshorter : unpieces shorter <+: p.text :=
    unpieces_pieces p ▸ unpieces_isPrefix ((List.prefix_append shorter [last]).trans hbegin)
  have hparent : p.parent? = some (if shorter.isEmpty then ⟨[]⟩
      else if shorter.all (·.isEmpty) then ⟨['/']⟩ else ⟨trimmedText ⟨unpieces shorter⟩⟩) := by
    have hend : p.components.getLast? = some c := by
      have hall : p.components = (p.start ++ front) ++ [c] := by
        rw [List.append_assoc, ← hsteps]
        rfl
      rw [hall, List.getLast?_concat]
    unfold parent?
    rw [hend, hcut, List.dropLast_concat]
    cases c with
    | root => exact absurd rfl hc'
    | current => exact absurd rfl hc
    | parent => rfl
    | normal name => rfl
  refine ⟨_, hparent, ?_⟩
  cases shorter with
  | nil =>
    -- an absolute path has a slash in front of its last step
    refine ⟨List.nil_prefix, (Bool.eq_false_iff.mpr fun habsolute => ?_).symm, hfront⟩
    obtain ⟨rest, hpieces⟩ := pieces_of_isAbsolute habsolute
    rw [List.nil_append, hpieces] at hbegin
    obtain ⟨rfl, -⟩ := List.cons_prefix_cons.mp hbegin
    cases hlast
  | cons piece more =>
    rw [if_neg (by simp)]
    split
    · rename_i hempty
      -- only slashes stand in front of the last name
      obtain ⟨behind, hbehind⟩ := hbegin
      obtain rfl : piece = [] := by simpa using (Bool.and_eq_true_iff.mp hempty).1
      obtain ⟨next, rest, hnext⟩ := List.exists_cons_of_ne_nil
        (show more ++ [last] ++ behind ≠ [] by simp)
      have htext : p.text = '/' :: unpieces (next :: rest) := by
        rw [← unpieces_pieces, ← hbehind, List.cons_append, List.cons_append, hnext,
          unpieces_cons_cons]
        rfl
      refine ⟨?_, (isAbsolute_iff.mpr ⟨_, htext⟩).symm, ?_⟩
      · rw [htext]
        exact List.cons_prefix_cons.mpr ⟨rfl, List.nil_prefix⟩
      · rw [← hfront, filterMap_of_isEmpty hempty]
        rfl
    · rename_i hnamed
      have hne : unpieces (piece :: more) ≠ [] := by
        intro hnil
        have hpieces := pieces_unpieces (List.cons_ne_nil piece more) hslash
        rw [hnil] at hpieces
        exact hnamed (by rw [← hpieces]; rfl)
      refine ⟨(trimmedText_isPrefix _).trans hshorter, ?_, ?_⟩
      · rw [isAbsolute_trimmedText, isAbsolute_of_prefix hshorter hne]
      · rw [steps_trimmedText, steps_unpieces hslash, hfront]

/-- A file next to another one has its steps but the last, and its own name. -/
theorem steps_withFileName {front : List Component} {old : Text} (hp : p.isAbsolute = true)
    (hsteps : p.steps = front ++ [.normal old]) (hslash : '/' ∉ name)
    (hname : componentOf? name = some (.normal name)) :
    (p.withFileName name).isAbsolute = true ∧
      (p.withFileName name).steps = front ++ [.normal name] := by
  obtain ⟨above, habove, -, habsolute, hfront⟩ := exists_parent? hsteps (by simp) (by simp)
  rw [hp] at habsolute
  have hlast : p.fileName? = some old := by
    rw [fileName?, components_of_isAbsolute hp, hsteps, ← List.cons_append, List.getLast?_concat]
  have hwith : p.withFileName name = above.join ⟨name⟩ := by
    rw [withFileName, hlast, habove]
    rfl
  obtain ⟨rest, hrest⟩ := isAbsolute_iff.mp habsolute
  rw [hwith]
  refine ⟨isAbsolute_join habsolute _, ?_⟩
  rw [steps_join (by simp [hrest]) (isAbsolute_of_slash_not_mem hslash), hfront,
    steps_of_name hslash hname]

end Path

end ExtensionAudit
