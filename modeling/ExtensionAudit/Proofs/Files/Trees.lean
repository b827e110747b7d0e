import ExtensionAudit.Proofs.Files.Locations
/-
  Trees: file systems in which every name can be one, what is listed lies in a
  directory and nothing is listed twice. In a tree the path of a location leads to
  what stands there, and without links a path leads where its steps go.

  Main statements: `IsTree.target_pathOf`, `NoLinks.eq_walk_of_target` and
  `IsTree.target_pathOf_iff`.
-/

namespace ExtensionAudit

instance : (e : Option Entry) → Decidable (e = some .directory)
  | some .directory => isTrue rfl
  | some (.file ..) | some (.link _) | none => isFalse nofun

def Entry.isLink : Entry → Bool
  | .link _ => true
  | _ => false

namespace FileSystem

/-- What is listed has names and lies in a directory, no location is listed twice, and relative
paths begin in a directory. -/
structure IsTree (fs : FileSystem) : Prop where
  names : ∀ p ∈ fs.entries, ∀ name ∈ p.1, IsEntryName name
  above : ∀ p ∈ fs.entries, fs.get? p.1.dropLast = some .directory
  nodup : (fs.entries.map (·.1)).Nodup
  here : fs.get? fs.workingDirectory = some .directory

instance (fs : FileSystem) : Decidable fs.IsTree :=
  decidable_of_iff ((∀ p ∈ fs.entries, ∀ name ∈ p.1, IsEntryName name) ∧
      (∀ p ∈ fs.entries, fs.get? p.1.dropLast = some .directory) ∧
      (fs.entries.map (·.1)).Nodup ∧ fs.get? fs.workingDirectory = some .directory)
    ⟨fun ⟨hnames, habove, hnodup, hhere⟩ => ⟨hnames, habove, hnodup, hhere⟩,
      fun h => ⟨h.names, h.above, h.nodup, h.here⟩⟩

/-- Nothing that stands anywhere is a link. -/
def NoLinks (fs : FileSystem) : Prop := ∀ l target, fs.get? l ≠ some (.link target)

variable {fs : FileSystem} {through : Bool} {links : Nat} {here l k : Location} {name : Text}
  {pieces : List Text} {e : Entry} {p : Path}

/-! ## The table -/

theorem get?_root : fs.get? [] = some .directory := rfl

theorem mem_of_find? {t : List (Location × Entry)} (h : find? l t = some e) : (l, e) ∈ t := by
  induction t with
  | nil => cases h
  | cons p t ih =>
    obtain ⟨m, d⟩ := p
    rw [find?] at h
    split at h
    · rename_i hm
      cases h
      rw [hm]
      exact List.mem_cons_self
    · exact List.mem_cons_of_mem _ (ih h)

theorem mem_of_get? (h : fs.get? l = some e) (hl : l ≠ []) : (l, e) ∈ fs.entries := by
  rw [get?, if_neg hl] at h
  exact mem_of_find? h

theorem find?_of_mem {t : List (Location × Entry)} (hnodup : (t.map (·.1)).Nodup)
    (h : (l, e) ∈ t) : find? l t = some e := by
  induction t with
  | nil => cases h
  | cons p t ih =>
    obtain ⟨m, d⟩ := p
    rw [List.map_cons, List.nodup_cons] at hnodup
    rw [find?]
    rcases List.mem_cons.mp h with heq | h
    · cases heq
      rw [if_pos rfl]
    · rw [if_neg, ih hnodup.2 h]
      rintro rfl
      exact hnodup.1 (List.mem_map_of_mem (f := (·.1)) h)

theorem noLinks_of_entries (h : ∀ p ∈ fs.entries, p.2.isLink = false) : NoLinks fs := by
  intro l target hl
  by_cases hroot : l = []
  · subst hroot
    cases hl
  · exact Bool.false_ne_true (h _ (mem_of_get? hl hroot)).symm

/-! ## Going down -/

namespace IsTree

variable (tree : fs.IsTree)

include tree

theorem get?_of_mem (h : (l, e) ∈ fs.entries) (hl : l ≠ []) : fs.get? l = some e := by
  rw [get?, if_neg hl]
  exact find?_of_mem tree.nodup h

theorem names_of_get? (h : fs.get? l = some e) : ∀ name ∈ l, IsEntryName name := by
  by_cases hl : l = []
  · simp [hl]
  · exact tree.names _ (mem_of_get? h hl)

theorem directory_of_get? (h : fs.get? (l ++ [name]) = some e) : fs.get? l = some .directory := by
  have habove := tree.above _ (mem_of_get? h (by simp))
  rwa [List.dropLast_concat] at habove

theorem directory_above {ks : List Text} (h : fs.get? (l ++ name :: ks) = some e) :
    fs.get? l = some .directory := by
  induction ks generalizing l name with
  | nil => exact tree.directory_of_get? h
  | cons next ks ih =>
    rw [show l ++ name :: next :: ks = (l ++ [name]) ++ next :: ks by simp] at h
    exact tree.directory_of_get? (ih h)

theorem directory_dropLast (h : fs.get? l = some .directory) :
    fs.get? l.dropLast = some .directory := by
  rcases List.eq_nil_or_concat l with rfl | ⟨above, name, rfl⟩
  · rfl
  · rw [List.concat_eq_append] at h ⊢
    rw [List.dropLast_concat]
    exact tree.directory_of_get? h

theorem get?_of_follow (hhere : fs.get? here = some .directory)
    (h : fs.follow through links here pieces = .ok (.found l .directory)) :
    fs.get? l = some .directory := by
  rw [follow_eq_ok_iff] at h
  induction h using Reaches.directory_induction with
  | done => exact hhere
  | idle _ _ ih => exact ih hhere
  | parent _ _ ih => exact ih (tree.directory_dropLast hhere)
  | directory _ hget _ ih => exact ih hget
  | jump _ _ _ _ ih =>
    refine ih ?_
    split
    · rfl
    · exact hhere

theorem follow_down {ks : List Text} (hhere : fs.get? here = some .directory)
    (hget : fs.get? (here ++ ks) = some e) (hlink : ∀ target, e ≠ .link target) :
    fs.follow through links here ks = .ok (.found (here ++ ks) e) := by
  induction ks generalizing here with
  | nil =>
    rw [List.append_nil] at hget ⊢
    obtain rfl : e = .directory := Option.some.inj (hget.symm.trans hhere)
    exact follow_nil
  | cons name ks ih =>
    have hname := (tree.names_of_get? hget name (by simp)).toIsName
    rw [follow_name hname]
    rw [show here ++ name :: ks = (here ++ [name]) ++ ks by simp] at hget ⊢
    cases ks with
    | nil =>
      rw [List.append_nil] at hget ⊢
      rw [hget]
      cases e with
      | file content executable => rfl
      | directory => exact follow_nil
      | link target => exact absurd rfl (hlink target)
    | cons next ks =>
      rw [tree.directory_above hget]
      exact ih (tree.directory_above hget) hget

end IsTree

/-! ## Where steps go -/

/-- Where a step goes when no link is in its way. -/
def stepFrom (l : Location) : Path.Component → Location
  | .parent => l.dropLast
  | .normal name => l ++ [name]
  | .root => l
  | .current => l

/-- Where steps go, one after the other. -/
def walk (here : Location) (steps : List Path.Component) : Location := steps.foldl stepFrom here

theorem walk_append (here : Location) (steps more : List Path.Component) :
    walk here (steps ++ more) = walk (walk here steps) more := List.foldl_append

theorem walk_names (here : Location) (names : List Text) :
    walk here (names.map .normal) = here ++ names := by
  induction names generalizing here with
  | nil => simp [walk]
  | cons name names ih =>
    rw [List.map_cons, walk, List.foldl_cons, ← walk, ih]
    simp [stepFrom]

theorem NoLinks.eq_walk_of_follow (hlinks : fs.NoLinks)
    (h : fs.follow through links here pieces = .ok (.found l e)) :
    l = walk here (pieces.filterMap Path.componentOf?) := by
  rw [follow_eq_ok_iff] at h
  generalize hplace : Place.found l e = place at h
  induction h with
  | done => cases hplace; rfl
  | idle hc _ ih => rw [List.filterMap_cons, hc, ih hplace]
  | parent hc _ ih => rw [List.filterMap_cons, hc, ih hplace]; rfl
  | directory hname _ _ ih => rw [List.filterMap_cons, hname.component, ih hplace]; rfl
  | file hname _ => cases hplace; rw [List.filterMap_cons, hname.component]; rfl
  | link _ hget _ => exact absurd hget (hlinks _ _)
  | jump _ hget _ _ _ => exact absurd hget (hlinks _ _)
  | missing => cases hplace

/-! ## Paths of locations -/

theorem start_eq_ok_iff : fs.start p = .ok here ↔ p.text ≠ [] ∧ '\x00' ∉ p.text ∧
    nameSize p.text ≤ pathLimit ∧ here = if p.isAbsolute then [] else fs.workingDirectory := by
  unfold start
  by_cases hempty : p.text = []
  · simp [hempty]
  by_cases hzero : '\x00' ∈ p.text
  · simp [hempty, hzero]
  rw [if_neg (by simpa using hempty), if_neg (by simpa using hzero)]
  split
  · rename_i hsize
    exact ⟨nofun, fun h => absurd h.2.2.1 (Nat.not_le.mpr hsize)⟩
  · rename_i hsize
    rw [Except.ok.injEq]
    exact ⟨fun h => ⟨hempty, hzero, Nat.not_lt.mp hsize, h.symm⟩, fun h => h.2.2.2.symm⟩

theorem start_eq_error {fs' : FileSystem} {kind : IoKind} (h : fs.start p = .error kind) :
    fs'.start p = .error kind := by
  unfold start at h ⊢
  split at h
  · rw [if_pos ‹_›]
    exact h
  · rw [if_neg ‹_›]
    split at h
    · rw [if_pos ‹_›]
      exact h
    · rw [if_neg ‹_›]
      split at h
      · rw [if_pos ‹_›]
        exact h
      · cases h

theorem zero_not_mem_pathOf (hl : ∀ n ∈ l, IsEntryName n) : '\x00' ∉ (pathOf l).text := by
  intro hmem
  cases l with
  | nil => simp [pathOf] at hmem
  | cons name l =>
    obtain ⟨n, hn, hzero⟩ := List.mem_flatMap.mp hmem
    rcases List.mem_cons.mp hzero with hslash | hzero
    · cases hslash
    · exact (hl n hn).zero hzero

theorem start_pathOf (hl : ∀ n ∈ l, IsEntryName n) (hsize : nameSize (pathOf l).text ≤ pathLimit) :
    fs.start (pathOf l) = .ok [] :=
  start_eq_ok_iff.mpr ⟨text_pathOf_ne_nil l, zero_not_mem_pathOf hl, hsize,
    by rw [isAbsolute_pathOf, if_pos rfl]⟩

theorem nameSize_append (s t : Text) : nameSize (s ++ t) = nameSize s + nameSize t := by
  simp [nameSize, String.ofList_append]

theorem nameSize_pathOf_le (l : Location) (name : Text) :
    nameSize (pathOf l).text ≤ nameSize (pathOf (l ++ [name])).text := by
  have hlong : (pathOf (l ++ [name])).text = l.flatMap ('/' :: ·) ++ ('/' :: name) := by
    simp [pathOf]
  rw [hlong, nameSize_append]
  cases l with
  | nil =>
    rw [show '/' :: name = ['/'] ++ name from rfl, nameSize_append]
    exact Nat.le_trans (Nat.le_add_right _ _) (Nat.le_add_left _ _)
  | cons first l => exact Nat.le_add_right _ _

theorem pieces_pathOf_cons (hl : ∀ n ∈ name :: l, IsEntryName n) :
    (pathOf (name :: l)).pieces = [] :: name :: l :=
  splitAt_flatMap (t := []) (by simp) fun n hn => (hl n hn).slash

/-- The path of a location leads to what stands there. -/
theorem IsTree.target_pathOf (tree : fs.IsTree) (hget : fs.get? l = some e)
    (hlink : ∀ target, e ≠ .link target) (hsize : nameSize (pathOf l).text ≤ pathLimit) :
    fs.target (pathOf l) = .ok (l, e) := by
  have hl := tree.names_of_get? hget
  have hidle : Path.componentOf? [] = none := rfl
  rw [target_eq_ok_iff, resolve_of_start (start_pathOf hl hsize)]
  cases l with
  | nil =>
    cases hget
    rw [show (pathOf []).pieces = [[], []] from rfl, follow_idle hidle, follow_idle hidle]
    exact follow_nil
  | cons name l =>
    rw [pieces_pathOf_cons hl, follow_idle hidle]
    exact tree.follow_down get?_root hget hlink

/-- Without links a path that leads anywhere leads where its steps go. -/
theorem NoLinks.eq_walk_of_target (hlinks : fs.NoLinks) (h : fs.target p = .ok (l, e)) :
    l = walk (if p.isAbsolute then [] else fs.workingDirectory) p.steps := by
  obtain ⟨here, hstart, hfollow⟩ := resolve_eq_ok_iff.mp (target_eq_ok_iff.mp h)
  obtain ⟨-, -, -, rfl⟩ := start_eq_ok_iff.mp hstart
  exact hlinks.eq_walk_of_follow hfollow

theorem IsTree.get?_of_target (tree : fs.IsTree) (h : fs.target p = .ok (l, e)) :
    fs.get? l = some e := by
  by_cases he : e = .directory
  · subst he
    obtain ⟨here, hstart, hfollow⟩ := resolve_eq_ok_iff.mp (target_eq_ok_iff.mp h)
    obtain ⟨-, -, -, rfl⟩ := start_eq_ok_iff.mp hstart
    refine tree.get?_of_follow ?_ hfollow
    split
    · rfl
    · exact tree.here
  · exact FileSystem.get?_of_target h he

theorem IsTree.target_pathOf_iff (tree : fs.IsTree) (hlinks : fs.NoLinks)
    (hl : ∀ n ∈ l, IsEntryName n) : fs.target (pathOf l) = .ok (k, e) ↔
      k = l ∧ fs.get? l = some e ∧ nameSize (pathOf l).text ≤ pathLimit := by
  constructor
  · intro h
    have hk := hlinks.eq_walk_of_target h
    rw [steps_pathOf hl, isAbsolute_pathOf, if_pos rfl, walk_names, List.nil_append] at hk
    obtain ⟨here, hstart, -⟩ := resolve_eq_ok_iff.mp (target_eq_ok_iff.mp h)
    obtain ⟨-, -, hsize, -⟩ := start_eq_ok_iff.mp hstart
    exact ⟨hk, hk ▸ tree.get?_of_target h, hsize⟩
  · rintro ⟨rfl, hget, hsize⟩
    exact tree.target_pathOf hget (fun target he => hlinks _ target (he ▸ hget)) hsize

/-! ## Paths that lead on -/

theorem exists_directory_of_follow {front rest : List Text} (hrest : rest ≠ [])
    (h : fs.follow true links here (front ++ rest) = .ok (.found l e)) :
    ∃ k, fs.follow true links here front = .ok (.found k .directory) := by
  obtain ⟨k, hk, -⟩ := (Reaches.of_follow h).of_append hrest (by simp)
  exact ⟨k, hk.follow⟩

theorem follow_concat_nil {front : List Text} :
    fs.follow true links here (front ++ [[]]) = .ok (.found l .directory) ↔
      fs.follow true links here front = .ok (.found l .directory) := by
  have hidle : Path.componentOf? [] = none := rfl
  have hbehind {k : Location} (h : fs.follow true links here front = .ok (.found k .directory)) :
      fs.follow true links here (front ++ [[]]) = .ok (.found k .directory) :=
    ((Reaches.of_follow h).append rfl fun links => .idle hidle (.done links k)).follow
  constructor
  · intro h
    obtain ⟨k, hk⟩ := exists_directory_of_follow (by simp) h
    have hsame := (hbehind hk).symm.trans h
    simp only [Except.ok.injEq, Place.found.injEq, and_true] at hsame
    rw [← hsame]
    exact hk
  · exact hbehind

theorem isDirectory_of_isDirectory_join {q : Path} (hp : p.isAbsolute = true)
    (hq : q.isAbsolute = false) (h : fs.isDirectory (p.join q) = true) :
    fs.isDirectory p = true := by
  obtain ⟨rest, hrest⟩ := Path.isAbsolute_iff.mp hp
  have hne : p.text ≠ [] := by simp [hrest]
  obtain ⟨l, hl⟩ := isDirectory_iff.mp h
  obtain ⟨here, hstart, hfollow⟩ := resolve_eq_ok_iff.mp hl
  obtain ⟨-, hzero, hsize, hhere⟩ := start_eq_ok_iff.mp hstart
  rw [Path.isAbsolute_join hp q, if_pos rfl] at hhere
  obtain ⟨front, htext, hfront⟩ := Path.exists_text_join hne hq
  -- the text of the path begins that of the longer one
  obtain ⟨more, hmore⟩ : ∃ more, (p.join q).text = p.text ++ more := by
    rcases hfront with ⟨hfront, -⟩ | hfront
    · exact ⟨'/' :: q.text, by rw [htext, hfront]⟩
    · exact ⟨q.text, by rw [htext, hfront, List.append_assoc]; rfl⟩
  rw [hmore] at hzero hsize
  have hstartp : fs.start p = .ok here := start_eq_ok_iff.mpr ⟨hne,
    fun hmem => hzero (List.mem_append_left _ hmem),
    Nat.le_trans (by rw [nameSize_append]; exact Nat.le_add_right _ _) hsize,
    by rw [hp, if_pos rfl, hhere]⟩
  obtain ⟨before, hpieces, hbefore⟩ := Path.exists_pieces_join hne hq
  rw [hpieces] at hfollow
  obtain ⟨k, hk⟩ := exists_directory_of_follow q.pieces_ne_nil hfollow
  refine isDirectory_iff.mpr ⟨k, resolve_eq_ok_iff.mpr ⟨here, hstartp, ?_⟩⟩
  rcases hbefore with hbefore | hbefore
  · rw [hbefore]
    exact hk
  · rw [hbefore]
    exact follow_concat_nil.mpr hk

theorem isAbsolute_foldl_join {names : List Text} (hp : p.text ≠ [])
    (hnames : ∀ n ∈ names, '/' ∉ n) :
    (names.foldl (fun q name => q.join ⟨name⟩) p).isAbsolute = p.isAbsolute := by
  induction names generalizing p with
  | nil => rfl
  | cons n names ih =>
    obtain ⟨hn, hnames⟩ := List.forall_mem_cons.mp hnames
    have hrelative : Path.isAbsolute ⟨n⟩ = false := Path.isAbsolute_of_slash_not_mem hn
    rw [List.foldl_cons, ih (Path.text_join_ne_nil hp hrelative) hnames,
      Path.isAbsolute_join_eq hp hrelative]

/-- Names joined to the path of a directory lead down from it, unless the path gets too long. -/
theorem IsTree.resolve_foldl_join {names : List Text} (tree : fs.IsTree)
    (hdir : fs.resolve true p = .ok (.found l .directory)) (hne : names ≠ [])
    (hget : fs.get? (l ++ names) = some e) (hlink : ∀ target, e ≠ .link target)
    (hstart : fs.start (names.foldl (fun q name => q.join ⟨name⟩) p) = .ok k) :
    fs.resolve true (names.foldl (fun q name => q.join ⟨name⟩) p) = .ok (.found (l ++ names) e) := by
  have hentry : ∀ n ∈ names, IsEntryName n := fun n hn =>
    tree.names_of_get? hget n (List.mem_append_right l hn)
  obtain ⟨here, hbegin, hfollow⟩ := resolve_eq_ok_iff.mp hdir
  obtain ⟨hp, -, -, hhere⟩ := start_eq_ok_iff.mp hbegin
  obtain ⟨-, -, -, hk⟩ := start_eq_ok_iff.mp hstart
  rw [isAbsolute_foldl_join hp fun n hn => (hentry n hn).slash, ← hhere] at hk
  obtain ⟨front, hpieces, hfront⟩ := Path.exists_pieces_foldl_join hp hne fun n hn =>
    ⟨(hentry n hn).toIsName.ne_nil, (hentry n hn).slash⟩
  have hfollow : fs.follow true linkLimit here front = .ok (.found l .directory) := by
    rcases hfront with hfront | hfront
    · rwa [hfront] at hfollow
    · rwa [hfront, follow_concat_nil] at hfollow
  have hl : fs.get? l = some .directory := tree.get?_of_target (target_eq_ok_iff.mpr hdir)
  rw [resolve_of_start (hk ▸ hstart), hpieces]
  exact ((Reaches.of_follow hfollow).append (Bool.and_false _) fun links =>
    .of_follow (tree.follow_down hl hget hlink)).follow

end FileSystem

end ExtensionAudit
