import ExtensionAudit.Files.Walk
import ExtensionAudit.Proofs.Files.Trees
/-
  Listings. A directory of a tree holds every name once, and the directories in it
  come in the order of their names; leaving one of them out leaves the others in
  their places. A walk gives the files below a directory by their names, and what
  it comes upon where it starts decides the rest.

  Main statements: `IsTree.subdirectories_pathOf`, `mergeSort_filter`,
  `mem_filesInside` and `WalkGives.of_filesBelow`.
-/

namespace ExtensionAudit

/-! ## The order of names -/

namespace Text

theorem isBefore_self (s : Text) : isBefore s s = false := by
  induction s with
  | nil => rfl
  | cons a s ih => simp [isBefore, ih]

theorem isBefore_asymm {s t : Text} (h : isBefore s t = true) : isBefore t s = false := by
  induction s generalizing t with
  | nil => cases t <;> rfl
  | cons a s ih =>
    cases t with
    | nil => cases h
    | cons b t =>
      rw [isBefore] at h ⊢
      by_cases hab : a = b
      · subst hab
        rw [if_pos rfl] at h ⊢
        exact ih h
      · rw [if_neg hab, decide_eq_true_eq] at h
        rw [if_neg (Ne.symm hab), decide_eq_false_iff_not]
        exact Nat.lt_asymm h

theorem eq_of_not_isBefore {s t : Text} (h : isBefore s t = false) (h' : isBefore t s = false) :
    s = t := by
  induction s generalizing t with
  | nil =>
    cases t with
    | nil => rfl
    | cons b t => cases h
  | cons a s ih =>
    cases t with
    | nil => cases h'
    | cons b t =>
      rw [isBefore] at h h'
      by_cases hab : a = b
      · subst hab
        rw [if_pos rfl] at h h'
        rw [ih h h']
      · rw [if_neg hab, decide_eq_false_iff_not] at h
        rw [if_neg (Ne.symm hab), decide_eq_false_iff_not] at h'
        exact absurd (Char.toNat_inj.mp (Nat.le_antisymm (Nat.not_lt.mp h') (Nat.not_lt.mp h))) hab

theorem not_isBefore_trans {s t r : Text} (h : isBefore t s = false) (h' : isBefore r t = false) :
    isBefore r s = false := by
  induction s generalizing t r with
  | nil => cases r <;> rfl
  | cons a s ih =>
    cases t with
    | nil => cases h
    | cons b t =>
      cases r with
      | nil => cases h'
      | cons c r =>
        rw [isBefore] at h h' ⊢
        by_cases hba : b = a
        · subst hba
          rw [if_pos rfl] at h
          by_cases hcb : c = b
          · subst hcb
            rw [if_pos rfl] at h' ⊢
            exact ih h h'
          · rw [if_neg hcb] at h' ⊢
            exact h'
        · rw [if_neg hba, decide_eq_false_iff_not, Nat.not_lt] at h
          have hne : a.toNat ≠ b.toNat := fun heq => hba (Char.toNat_inj.mp heq.symm)
          by_cases hcb : c = b
          · subst hcb
            rw [if_neg hba, decide_eq_false_iff_not, Nat.not_lt]
            exact h
          · rw [if_neg hcb, decide_eq_false_iff_not, Nat.not_lt] at h'
            have hca : a.toNat < c.toNat := by omega
            rw [if_neg (fun heq => by simp [heq] at hca), decide_eq_false_iff_not]
            exact Nat.lt_asymm hca

end Text

/-- Sorting and leaving out can be done in either order, where the order tells all apart. -/
theorem mergeSort_filter {α : Type} {le : α → α → Bool}
    (trans : ∀ a b c, le a b = true → le b c = true → le a c = true)
    (total : ∀ a b, (le a b || le b a) = true)
    (antisymm : ∀ a b, le a b = true → le b a = true → a = b) (keep : α → Bool) (as : List α) :
    (as.filter keep).mergeSort le = (as.mergeSort le).filter keep := by
  apply List.Perm.eq_of_pairwise fun a b _ _ => antisymm a b
  · exact List.pairwise_mergeSort trans total _
  · exact (List.pairwise_mergeSort trans total as).filter keep
  · exact (List.mergeSort_perm _ _).trans ((List.mergeSort_perm as le).filter keep).symm

theorem filterMap_filter_of_none {α β : Type} {f : α → Option β} {keep : α → Bool} {as : List α}
    (h : ∀ a ∈ as, keep a = false → f a = none) : (as.filter keep).filterMap f = as.filterMap f := by
  induction as with
  | nil => rfl
  | cons a as ih =>
    obtain ⟨ha, has⟩ := List.forall_mem_cons.mp h
    cases hkeep : keep a with
    | true => rw [List.filter_cons, if_pos hkeep, List.filterMap_cons, List.filterMap_cons, ih has]
    | false =>
      rw [List.filter_cons, if_neg (by simp [hkeep]), List.filterMap_cons, ha hkeep, ih has]

theorem exists_split_of_nodup {α : Type} [DecidableEq α] {as : List α} {a : α} (hnodup : as.Nodup)
    (ha : a ∈ as) : ∃ front back, as = front ++ a :: back ∧ as.filter (· ≠ a) = front ++ back := by
  obtain ⟨front, back, rfl⟩ := List.append_of_mem ha
  obtain ⟨-, hback, hfront⟩ := List.nodup_append.mp hnodup
  obtain ⟨hnot, -⟩ := List.nodup_cons.mp hback
  refine ⟨front, back, rfl, ?_⟩
  rw [List.filter_append, List.filter_cons, if_neg (by simp)]
  congr 1
  · exact List.filter_eq_self.mpr fun b hb => by simpa using hfront b hb a List.mem_cons_self
  · refine List.filter_eq_self.mpr fun b hb => ?_
    rw [decide_eq_true_eq]
    rintro rfl
    exact hnot hb

namespace FileSystem

variable {fs : FileSystem} {l k : Location} {name : Text} {names : List Text}

/-! ## Names in a directory -/

theorem mem_namesIn : name ∈ fs.namesIn l ↔ ∃ e, (l ++ [name], e) ∈ fs.entries := by
  rw [namesIn, List.mem_filterMap]
  constructor
  · rintro ⟨⟨k, e⟩, hmem, hname⟩
    rcases List.eq_nil_or_concat k with rfl | ⟨above, last, rfl⟩
    · cases hname
    · rw [List.concat_eq_append] at hname hmem
      simp only [List.getLast?_concat, List.dropLast_concat] at hname
      split at hname
      · rename_i habove
        cases hname
        exact ⟨e, habove ▸ hmem⟩
      · cases hname
  · rintro ⟨e, hmem⟩
    exact ⟨_, hmem, by simp⟩

theorem IsTree.nodup_namesIn (tree : fs.IsTree) (l : Location) : (fs.namesIn l).Nodup := by
  have hnodup := List.pairwise_map.mp tree.nodup
  have hnames : fs.namesIn l = fs.entries.filterMap fun p =>
      p.1.getLast?.bind fun name => if p.1.dropLast = l then some name else none := by
    refine congrArg (List.filterMap · fs.entries) (funext fun p => ?_)
    dsimp only
    cases p.1.getLast? <;> rfl
  rw [hnames]
  refine hnodup.filterMap _ ?_
  -- a name and its directory make up the location
  have hlocation {k : Location} {n : Text}
      (h : (k.getLast?.bind fun name => if k.dropLast = l then some name else none) = some n) :
      k = l ++ [n] := by
    rcases List.eq_nil_or_concat k with rfl | ⟨above, last, rfl⟩
    · cases h
    · rw [List.concat_eq_append] at h ⊢
      simp only [List.getLast?_concat, List.dropLast_concat, Option.bind_some] at h
      split at h
      · rename_i habove
        cases h
        rw [habove]
      · cases h
  intro p q hne n hp n' hq heq
  subst heq
  exact hne ((hlocation hp).trans (hlocation hq).symm)

theorem IsTree.names_of_mem_namesIn (tree : fs.IsTree) (h : name ∈ fs.namesIn l) :
    IsEntryName name := by
  obtain ⟨e, hmem⟩ := mem_namesIn.mp h
  exact tree.names _ hmem name (by simp)

theorem namesBelow?_eq_some {names : List Text} : namesBelow? l k = some names ↔
    k = l ++ names ∧ names ≠ [] := by
  induction l generalizing k with
  | nil =>
    cases k with
    | nil => simp [namesBelow?]
    | cons name k =>
      have hne : name :: k ≠ [] := by simp
      rw [namesBelow?, Option.some.injEq, List.nil_append]
      · exact ⟨fun heq => ⟨heq, heq ▸ hne⟩, fun heq => heq.1⟩
      · exact fun heq => hne heq
  | cons a l ih =>
    cases k with
    | nil => simp [namesBelow?]
    | cons b k =>
      rw [namesBelow?]
      split
      · rename_i heq
        subst heq
        simpa using ih
      · rename_i hne
        simp [Ne.symm hne]

/-! ## The order of directories -/

theorem componentsLe_append (cs : List Path.Component) (as bs : List Path.Component) :
    Path.componentsLe (cs ++ as) (cs ++ bs) = Path.componentsLe as bs := by
  induction cs with
  | nil => rfl
  | cons c cs ih => simp [Path.componentsLe, ih]

theorem le_pathOf {a b : Text} (hl : ∀ n ∈ l, IsEntryName n) (ha : IsEntryName a)
    (hb : IsEntryName b) :
    (pathOf (l ++ [a])).le (pathOf (l ++ [b])) = !Text.isBefore b a := by
  rw [Path.le, components_pathOf (ha.concat hl), components_pathOf (hb.concat hl), List.map_append,
    List.map_append, ← List.cons_append, ← List.cons_append, componentsLe_append]
  by_cases hab : a = b
  · subst hab
    simp [Path.componentsLe, Text.isBefore_self]
  · simp [Path.componentsLe, Path.Component.le, hab]

/-- The order of names. -/
def nameLe (a b : Text) : Bool := !Text.isBefore b a

theorem nameLe_trans (a b c : Text) (h : nameLe a b = true) (h' : nameLe b c = true) :
    nameLe a c = true := by
  simp only [nameLe, Bool.not_eq_true'] at h h' ⊢
  exact Text.not_isBefore_trans h h'

theorem nameLe_total (a b : Text) : (nameLe a b || nameLe b a) = true := by
  cases h : Text.isBefore b a with
  | false => simp [nameLe, h]
  | true => simp [nameLe, Text.isBefore_asymm h]

theorem nameLe_antisymm (a b : Text) (h : nameLe a b = true) (h' : nameLe b a = true) : a = b := by
  simp only [nameLe, Bool.not_eq_true'] at h h'
  exact Text.eq_of_not_isBefore h' h

/-! ## The directories in a directory -/

/-- The names of the directories that a path shows in the directory it leads to, in order. -/
def directoryNames (fs : FileSystem) (p : Path) (l : Location) : List Text :=
  ((fs.namesIn l).filter fun name => fs.isDirectory (p.join ⟨name⟩)).mergeSort nameLe

theorem mem_directoryNames {p : Path} :
    name ∈ fs.directoryNames p l ↔ name ∈ fs.namesIn l ∧ fs.isDirectory (p.join ⟨name⟩) = true := by
  rw [directoryNames, List.mem_mergeSort, List.mem_filter]

theorem IsTree.nodup_directoryNames (tree : fs.IsTree) (p : Path) (l : Location) :
    (fs.directoryNames p l).Nodup := by
  rw [directoryNames, (List.mergeSort_perm _ _).nodup_iff]
  exact (tree.nodup_namesIn l).filter _

theorem text_ne_nil_of_target {p : Path} {e : Entry} (h : fs.target p = .ok (l, e)) : p.text ≠ [] := by
  obtain ⟨here, hstart, -⟩ := resolve_eq_ok_iff.mp (target_eq_ok_iff.mp h)
  exact (start_eq_ok_iff.mp hstart).1

/-- Whether a path leads nowhere. -/
def isMissing (fs : FileSystem) (p : Path) : Bool :=
  match fs.target p with
  | .error .notFound => true
  | _ => false

theorem isMissing_iff {p : Path} : fs.isMissing p = true ↔ fs.target p = .error .notFound := by
  unfold isMissing
  split
  · rename_i htarget
    simp [htarget]
  · rename_i hother
    exact ⟨nofun, fun htarget => (hother htarget).elim⟩

theorem list_of_target {p : Path} (h : fs.target p = .ok (l, .directory)) :
    fs.list p = .ok ((fs.namesIn l).map fun name => p.join ⟨name⟩) := by
  unfold list
  rw [h]
  rfl

theorem target_of_subdirectories {p : Path} {dirs : List Path}
    (h : fs.subdirectories p = .ok dirs) :
    (fs.target p = .error .notFound ∧ dirs = []) ∨
      ∃ l, fs.target p = .ok (l, .directory) ∧
        dirs = (((fs.namesIn l).map fun name => p.join ⟨name⟩).filter
          fs.isDirectory).mergeSort Path.le := by
  cases htarget : fs.target p with
  | error kind =>
    have hlist : fs.list p = .error kind := by
      unfold list
      rw [htarget]
      rfl
    rw [subdirectories, hlist] at h
    cases kind <;> cases h
    exact .inl ⟨rfl, rfl⟩
  | ok found =>
    obtain ⟨l, e⟩ := found
    by_cases he : e = .directory
    · subst he
      rw [subdirectories, list_of_target htarget] at h
      cases h
      exact .inr ⟨l, rfl, rfl⟩
    · have hlist : fs.list p = .error .notADirectory := by
        unfold list
        rw [htarget]
        cases e with
        | directory => exact absurd rfl he
        | _ => rfl
      rw [subdirectories, hlist] at h
      cases h

/-- The directories in one that is there, each by its name; the path may lead there over links. -/
theorem IsTree.subdirectories_pathOf (tree : fs.IsTree) (hl : ∀ n ∈ l, IsEntryName n)
    (htarget : fs.target (pathOf l) = .ok (k, .directory)) :
    fs.subdirectories (pathOf l) =
      .ok ((fs.directoryNames (pathOf l) k).map fun name => pathOf (l ++ [name])) := by
  have hname {n : Text} (hn : n ∈ fs.namesIn k) : IsEntryName n := tree.names_of_mem_namesIn hn
  unfold subdirectories
  rw [list_of_target htarget]
  simp only [List.filter_map, Except.ok.injEq]
  rw [directoryNames, List.map_mergeSort (s := Path.le)]
  · congr 1
    apply List.map_congr_left
    intro n hn
    exact join_pathOf_name hl (hname (List.mem_filter.mp hn).1).slash
  · intro a ha b hb
    rw [le_pathOf hl (hname (List.mem_filter.mp ha).1) (hname (List.mem_filter.mp hb).1), nameLe]

/-- A directory that is not there holds none, and where there is a listing it is that of the
directory. -/
theorem IsTree.subdirectories_eq_ok (tree : fs.IsTree) (hl : ∀ n ∈ l, IsEntryName n)
    {dirs : List Path} (h : fs.subdirectories (pathOf l) = .ok dirs) :
    ∃ names : List Text, dirs = names.map (fun name => pathOf (l ++ [name])) ∧
      ∀ name ∈ names, IsEntryName name ∧ fs.isDirectory (pathOf (l ++ [name])) = true := by
  rcases target_of_subdirectories h with ⟨-, rfl⟩ | ⟨k, htarget, -⟩
  · exact ⟨[], rfl, by simp⟩
  · rw [tree.subdirectories_pathOf hl htarget] at h
    cases h
    refine ⟨_, rfl, ?_⟩
    intro name hname
    obtain ⟨hmem, hdir⟩ := mem_directoryNames.mp hname
    have hentry := tree.names_of_mem_namesIn hmem
    rw [join_pathOf_name hl hentry.slash] at hdir
    exact ⟨hentry, hdir⟩

/-! ## Walks -/

section Walks

variable {p q : Path} {skip : Text → Bool}

/-- A walk over a directory gives the files below it whose names on the way are not skipped. -/
theorem mem_filesInside : q ∈ fs.filesInside skip p l ↔
    ∃ names content executable, names ≠ [] ∧
      (l ++ names, .file content executable) ∈ fs.entries ∧ (∀ n ∈ names, skip n = false) ∧
      q = names.foldl (fun q name => q.join ⟨name⟩) p := by
  rw [filesInside, List.mem_filterMap]
  constructor
  · rintro ⟨⟨k, e⟩, hmem, hq⟩
    dsimp only at hq
    split at hq
    · rename_i content executable names hnames
      obtain ⟨rfl, hne⟩ := namesBelow?_eq_some.mp hnames
      split at hq
      · cases hq
      · rename_i hskip
        exact ⟨names, content, executable, hne, hmem, by simpa using hskip,
          (Option.some.inj hq).symm⟩
    · cases hq
  · rintro ⟨names, content, executable, hne, hmem, hskip, rfl⟩
    have hnone : names.any skip = false := by simpa using hskip
    refine ⟨_, hmem, ?_⟩
    simp only [namesBelow?_eq_some.mpr ⟨rfl, hne⟩, hnone]
    rfl

theorem filesInside_filter {f : Location → Bool} (h : ∀ names, f (l ++ names) = true) :
    { fs with entries := fs.entries.filter fun entry => f entry.1 }.filesInside skip p l =
      fs.filesInside skip p l := by
  apply filterMap_filter_of_none
  rintro ⟨k, e⟩ - hkeep
  have hnone : namesBelow? l k = none := by
    rw [Option.eq_none_iff_forall_ne_some]
    intro names hnames
    obtain ⟨rfl, -⟩ := namesBelow?_eq_some.mp hnames
    exact absurd (h names) (by simp [hkeep])
  cases e <;> simp [hnone]

/-- What a walk comes upon where it starts, with the files that it then gives. A start that is a
link is not asked for its name. -/
inductive WalkGives (fs : FileSystem) (skip : Text → Bool) (p : Path) : List Path → Prop where
  | directory {l : Location} : fs.resolve false p = .ok (.found l .directory) →
      WalkGives fs skip p (if skip (walkName p) then [] else fs.filesInside skip p l)
  | file {l : Location} {content executable} :
      fs.resolve false p = .ok (.found l (.file content executable)) →
      WalkGives fs skip p (if skip (walkName p) then [] else [p])
  | link {k l : Location} {target} : fs.resolve false p = .ok (.found k (.link target)) →
      fs.target p = .ok (l, .directory) → WalkGives fs skip p (fs.filesInside skip p l)
  | nothing : (∀ l content executable,
        fs.resolve false p ≠ .ok (.found l (.file content executable))) →
      (∀ l, fs.target p ≠ .ok (l, .directory)) → WalkGives fs skip p []

theorem WalkGives.of_filesBelow {ps : List Path} (h : fs.filesBelow skip p = .ok ps) :
    fs.WalkGives skip p ps := by
  -- a start that is no link leads to no directory unless it is one
  have hthrough {place : Except IoKind Place} (hresolve : fs.resolve false p = place)
      (hlink : ∀ l target, place ≠ .ok (.found l (.link target)))
      (hplace : ∀ l, place ≠ .ok (.found l .directory)) (l : Location) :
      fs.target p ≠ .ok (l, .directory) := by
    rw [ne_eq, target_eq_ok_iff, resolve_true hresolve hlink]
    exact hplace l
  unfold filesBelow at h
  cases hresolve : fs.resolve false p with
  | error kind =>
    rw [hresolve] at h
    cases kind <;> cases h
    exact .nothing (by simp [hresolve]) (hthrough hresolve (by simp) (by simp))
  | ok place =>
    rw [hresolve] at h
    cases place with
    | missing l rest =>
      cases h
      exact .nothing (by simp [hresolve]) (hthrough hresolve (by simp) (by simp))
    | found l e =>
      cases e with
      | directory =>
        cases h
        exact .directory hresolve
      | file content executable =>
        cases h
        exact .file hresolve
      | link target =>
        dsimp only at h
        cases htarget : fs.target p with
        | error kind =>
          rw [htarget] at h
          cases kind <;> cases h
          exact .nothing (by simp [hresolve]) (by simp [htarget])
        | ok found =>
          obtain ⟨k, e⟩ := found
          rw [htarget] at h
          cases e with
          | directory =>
            cases h
            exact .link hresolve htarget
          | file _ _ =>
            cases h
            exact .nothing (by simp [hresolve]) (by simp [htarget])
          | link _ =>
            cases h
            exact .nothing (by simp [hresolve]) (by simp [htarget])

end Walks

end FileSystem

end ExtensionAudit
