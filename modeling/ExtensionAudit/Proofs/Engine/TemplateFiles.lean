import ExtensionAudit.Engine.Templates
import ExtensionAudit.Proofs.Files.PathOrder
/-
  The template files below directories. A walk gives the files whose names lead down
  from where it starts over no skipped name; what it gives is described here by
  those names, not by the walk. Sorting and dropping repeated paths then leaves a list
  that only depends on which files there are, so that directories may be given in
  any order, more than once, inside one another, or be missing.

  Main statements: `IsTree.mem_filesBelow`, `Template.mem_files` and
  `Template.files_canonical`.
-/

namespace ExtensionAudit

namespace Path

variable {p q : Path} {name ending : Text}

/-! ## Endings -/

/-- The extension of a name is what is behind its last dot, unless the name begins there. -/
theorem extensionOf?_eq_some_iff : extensionOf? name = some ending ↔
    ∃ stem, name = stem ++ '.' :: ending ∧ stem ≠ [] ∧ '.' ∉ ending := by
  have hsplit := List.takeWhile_append_dropWhile (p := (· != '.')) (l := name.reverse)
  -- on the reversed name, where the last dot is the first one
  unfold extensionOf?
  constructor
  · intro h
    dsimp only at h
    split at h
    · rename_i dot c rest hdrop
      cases h
      have hdot : dot = '.' := by
        have hhead := List.head?_dropWhile_not (· != '.') name.reverse
        rw [hdrop] at hhead
        simpa using hhead
      rw [hdrop, hdot] at hsplit
      refine ⟨(c :: rest).reverse, ?_, by simp, ?_⟩
      · have hname := congrArg List.reverse hsplit.symm
        simpa using hname
      · intro hmem
        have hnot := List.all_eq_true.mp List.all_takeWhile '.' (List.mem_reverse.mp hmem)
        simp at hnot
    · cases h
  · rintro ⟨stem, rfl, hstem, hdot⟩
    have hback : (stem ++ '.' :: ending).reverse = ending.reverse ++ '.' :: stem.reverse := by simp
    have hpass : ∀ c ∈ ending.reverse, (c != '.') = true := by
      intro c hc
      rw [bne_iff_ne]
      rintro rfl
      exact hdot (List.mem_reverse.mp hc)
    dsimp only
    rw [hback, List.dropWhile_append_of_pos hpass, List.takeWhile_append_of_pos hpass,
      List.dropWhile_cons, List.takeWhile_cons]
    obtain ⟨last, front, hfront⟩ := List.exists_cons_of_ne_nil (List.reverse_ne_nil_iff.mpr hstem)
    simp [hfront]

theorem fileName?_of_components (h : p.components = q.components) : p.fileName? = q.fileName? := by
  rw [fileName?, fileName?, h]

end Path

namespace FileSystem

open ExtensionAudit.Path

variable {fs : FileSystem} {dir above p : Path} {l : Location} {names : List Text}
  {skip : Text → Bool} {ps : List Path}

/-! ## Files below a path -/

/-- The names over which a file is found from a path: none where the path is that of the file, and
otherwise those of the directories down to it. Entries stand in directories, so no link is
passed on the way. -/
inductive FindsFile (fs : FileSystem) (dir : Path) : List Text → Prop where
  | itself {l content executable} :
      fs.resolve false dir = .ok (.found l (.file content executable)) → FindsFile fs dir []
  | below {l names content executable} : fs.target dir = .ok (l, .directory) → names ≠ [] →
      fs.get? (l ++ names) = some (.file content executable) → FindsFile fs dir names

theorem target_of_resolve_file {content : ByteArray} {executable : Bool}
    (h : fs.resolve false p = .ok (.found l (.file content executable))) :
    fs.target p = .ok (l, .file content executable) :=
  target_eq_ok_iff.mpr (resolve_true h (by simp))

theorem FindsFile.not_isMissing (h : fs.FindsFile dir names) : fs.isMissing dir = false := by
  rw [Bool.eq_false_iff, ne_eq, isMissing_iff]
  intro hmissing
  cases h with
  | itself hfile => cases hmissing.symm.trans (target_of_resolve_file hfile)
  | below hdir _ _ => cases hmissing.symm.trans hdir

section Trees

variable (tree : fs.IsTree)

include tree

theorem IsTree.mem_filesInside_iff (htarget : fs.target dir = .ok (l, .directory)) :
    p ∈ fs.filesInside skip dir l ↔ ∃ names, fs.FindsFile dir names ∧
      (∀ n ∈ names, skip n = false) ∧ p = names.foldl (fun q name => q.join ⟨name⟩) dir := by
  rw [mem_filesInside]
  constructor
  · rintro ⟨names, content, executable, hne, hmem, hskip, hp⟩
    exact ⟨names, .below htarget hne (tree.get?_of_mem hmem (by simp [hne])), hskip, hp⟩
  · rintro ⟨names, hfile, hskip, hp⟩
    cases hfile with
    | itself hfile => cases htarget.symm.trans (target_of_resolve_file hfile)
    | below hdir hne hget =>
      obtain ⟨rfl, -⟩ := Prod.mk.inj (Except.ok.inj (htarget.symm.trans hdir))
      exact ⟨names, _, _, hne, mem_of_get? hget (by simp [hne]), hskip, hp⟩

/-- A walk gives the files that are found from where it starts over no skipped name, provided
that it skips what is below a start with a skipped name. -/
theorem IsTree.mem_filesBelow
    (hskips : skip (walkName dir) = true → fs.filesBelow skip dir = .ok [])
    (h : fs.filesBelow skip dir = .ok ps) : p ∈ ps ↔ ∃ names, fs.FindsFile dir names ∧
      (∀ n ∈ walkName dir :: names, skip n = false) ∧
      p = names.foldl (fun q name => q.join ⟨name⟩) dir := by
  simp only [List.forall_mem_cons]
  cases hname : skip (walkName dir) with
  | true =>
    rw [hskips hname] at h
    cases h
    simp
  | false =>
    simp only [true_and]
    cases WalkGives.of_filesBelow h with
    | directory hresolve =>
      rw [hname]
      exact tree.mem_filesInside_iff (target_eq_ok_iff.mpr (resolve_true hresolve (by simp)))
    | file hresolve =>
      rw [hname]
      constructor
      · intro hp
        exact ⟨[], .itself hresolve, by simp, List.mem_singleton.mp hp⟩
      · rintro ⟨names, ⟨-⟩ | ⟨hdir, -, -⟩, -, rfl⟩
        · exact List.mem_singleton_self _
        · cases hdir.symm.trans (target_of_resolve_file hresolve)
    | link _ htarget => exact tree.mem_filesInside_iff htarget
    | nothing hfile hdir =>
      constructor
      · nofun
      · rintro ⟨names, ⟨h⟩ | ⟨h, -, -⟩, -⟩
        · exact absurd h (hfile _ _ _)
        · exact absurd h (hdir _)

/-- The path of a file that is found has the names behind the components of the start. -/
theorem IsTree.components_of_findsFile (h : fs.FindsFile dir names) :
    (names.foldl (fun q name => q.join ⟨name⟩) dir).components =
      dir.components ++ names.map .normal := by
  cases h with
  | itself => simp
  | below hdir _ hget =>
    exact components_foldl_join (text_ne_nil_of_target hdir) fun n hn =>
      tree.names_of_get? hget n (List.mem_append_right _ hn)

end Trees

/-- A walk skips what is below a start with a skipped name, unless that is a link. -/
theorem filesBelow_of_skipped (hname : skip (walkName dir) = true)
    (hlink : ∀ l target, fs.resolve false dir ≠ .ok (.found l (.link target)))
    (h : fs.filesBelow skip dir = .ok ps) : ps = [] := by
  cases WalkGives.of_filesBelow h with
  | directory _ => exact if_pos hname
  | file _ => exact if_pos hname
  | link hresolve _ => exact absurd hresolve (hlink _ _)
  | nothing _ _ => rfl

theorem exists_filesBelow_of_target {e : Entry} (h : fs.target dir = .ok (l, e))
    (skip : Text → Bool) : ∃ ps, fs.filesBelow skip dir = .ok ps := by
  unfold filesBelow
  cases hresolve : fs.resolve false dir with
  | error kind =>
    rw [target_eq_ok_iff, resolve_true hresolve (by simp)] at h
    cases h
  | ok place =>
    cases place with
    | missing l rest => exact ⟨_, rfl⟩
    | found l e' =>
      cases e' with
      | directory => exact ⟨_, rfl⟩
      | file _ _ => exact ⟨_, rfl⟩
      | link target => cases e <;> exact ⟨_, by rw [h]⟩

theorem filesBelow_of_isMissing (h : fs.isMissing dir = true) (skip : Text → Bool) :
    fs.filesBelow skip dir = .ok [] := by
  have hmissing := isMissing_iff.mp h
  unfold filesBelow
  cases hresolve : fs.resolve false dir with
  | error kind =>
    unfold target at hmissing
    rw [resolve_true hresolve (by simp)] at hmissing
    cases hmissing
    rfl
  | ok place =>
    cases place with
    | missing l rest => rfl
    | found l e =>
      cases e with
      | directory =>
        cases hmissing.symm.trans (target_eq_ok_iff.mpr (resolve_true hresolve (by simp)))
      | file _ _ => cases hmissing.symm.trans (target_of_resolve_file hresolve)
      | link target => simp only [hmissing]

end FileSystem

namespace Template

open ExtensionAudit.FileSystem ExtensionAudit.Path

variable {fs : FileSystem} {dir above p q : Path} {dirs dirs' ps : List Path}

/-- A path to a template: its name ends in a dot and `twig` or `html`, with something in front. -/
def HasTemplateName (p : Path) : Prop :=
  ∃ stem ending, p.fileName? = some (stem ++ '.' :: ending) ∧ stem ≠ [] ∧
    (ending = "twig".toList ∨ ending = "html".toList)

theorem isTemplate_iff : isTemplate p = true ↔ HasTemplateName p := by
  have hendings (ending : Text) : endings.contains (String.ofList ending) = true ↔
      ending = "twig".toList ∨ ending = "html".toList := by
    have hspelled (s : String) : String.ofList ending = s ↔ ending = s.toList := by
      constructor
      · rintro rfl
        exact String.toList_ofList.symm
      · rintro rfl
        exact String.ofList_toList
    simp only [endings, List.contains_cons, List.contains_nil, Bool.or_false, Bool.or_eq_true,
      beq_iff_eq, hspelled]
  rw [isTemplate, Option.any_eq_true]
  simp only [hendings, extension?, Option.bind_eq_some_iff, extensionOf?_eq_some_iff]
  constructor
  · rintro ⟨ending, ⟨name, hname, stem, rfl, hstem, -⟩, hending⟩
    exact ⟨stem, ending, hname, hstem, hending⟩
  · rintro ⟨stem, ending, hname, hstem, hending⟩
    refine ⟨ending, ⟨_, hname, stem, rfl, hstem, ?_⟩, hending⟩
    rcases hending with rfl | rfl <;> decide

theorem isTemplate_of_components (h : p.components = q.components) :
    isTemplate p = isTemplate q := by
  rw [isTemplate, isTemplate, extension?, extension?, fileName?_of_components h]

/-- A template below a directory: a file that is found from it, with the name of a template, and
none of the names from that of the directory on is `node_modules`. -/
def HoldsTemplate (fs : FileSystem) (dir p : Path) : Prop :=
  ∃ names, fs.FindsFile dir names ∧ "node_modules".toList ∉ walkName dir :: names ∧
    p.components = dir.components ++ names.map .normal ∧ HasTemplateName p

/-- A directory inside another one, with no `node_modules` from that one on. -/
def LiesIn (fs : FileSystem) (above dir : Path) : Prop :=
  ∃ l names, fs.target above = .ok (l, .directory) ∧ names ≠ [] ∧
    fs.target dir = .ok (l ++ names, .directory) ∧
    dir.components = above.components ++ names.map .normal ∧
    "node_modules".toList ∉ walkName above :: names

/-- A directory that adds nothing to others: it is one of them, or missing, or inside of one. -/
def Covers (fs : FileSystem) (dirs : List Path) (dir : Path) : Prop :=
  dir ∈ dirs ∨ fs.isMissing dir = true ∨ ∃ above ∈ dirs, LiesIn fs above dir

theorem notMem_iff {names : List Text} :
    (∀ n ∈ names, isSkipped n = false) ↔ "node_modules".toList ∉ names := by
  simp only [isSkipped, decide_eq_false_iff_not]
  constructor
  · exact fun h hmem => h _ hmem rfl
  · rintro h n hn rfl
    exact h hn

theorem HoldsTemplate.not_isMissing (h : HoldsTemplate fs dir p) : fs.isMissing dir = false := by
  obtain ⟨names, hfile, -⟩ := h
  exact hfile.not_isMissing

theorem LiesIn.holdsTemplate (hin : LiesIn fs above dir) (h : HoldsTemplate fs dir p) :
    HoldsTemplate fs above p := by
  obtain ⟨l, names, habove, hne, hdir, hcomponents, hnames⟩ := hin
  obtain ⟨more, hfile, hmore, hp, htemplate⟩ := h
  cases hfile with
  | itself hfile => cases hdir.symm.trans (target_of_resolve_file hfile)
  | below hdir' hne' hget =>
    obtain ⟨rfl, -⟩ := Prod.mk.inj (Except.ok.inj (hdir.symm.trans hdir'))
    rw [List.append_assoc] at hget
    refine ⟨names ++ more, .below habove (by simp [hne]) hget, ?_, ?_, htemplate⟩
    · rw [← List.cons_append, List.mem_append]
      rintro (hmem | hmem)
      · exact hnames hmem
      · exact hmore (List.mem_cons_of_mem _ hmem)
    · rw [hp, hcomponents, List.map_append, List.append_assoc]

theorem LiesIn.walkName (hin : LiesIn fs above dir) : isSkipped (walkName dir) = false := by
  obtain ⟨l, names, -, hne, -, hcomponents, hnames⟩ := hin
  obtain ⟨front, last, rfl⟩ : ∃ front last, names = front ++ [last] := by
    rcases List.eq_nil_or_concat names with rfl | ⟨front, last, rfl⟩
    · exact absurd rfl hne
    · exact ⟨front, last, List.concat_eq_append⟩
  have hname : dir.fileName? = some last := by
    rw [fileName?, hcomponents, List.map_append, ← List.append_assoc]
    simp
  rw [FileSystem.walkName, hname]
  exact notMem_iff.mpr hnames last (by simp)

theorem Covers.exists_holdsTemplate (hcovers : Covers fs dirs dir) (h : HoldsTemplate fs dir p) :
    ∃ dir ∈ dirs, HoldsTemplate fs dir p := by
  rcases hcovers with hmem | hmissing | ⟨above, habove, hin⟩
  · exact ⟨dir, hmem, h⟩
  · exact absurd hmissing (by simp [h.not_isMissing])
  · exact ⟨above, habove, hin.holdsTemplate h⟩

/-! ## All directories -/

theorem filesOfAll_eq_ok : filesOfAll fs dirs = .ok ps →
    (∀ dir ∈ dirs, ∃ found, fs.filesBelow isSkipped dir = .ok found) ∧
      ∀ p, p ∈ ps ↔ isTemplate p = true ∧
        ∃ dir ∈ dirs, ∃ found, fs.filesBelow isSkipped dir = .ok found ∧ p ∈ found := by
  induction dirs generalizing ps with
  | nil =>
    rintro ⟨⟩
    simp
  | cons dir dirs ih =>
    intro h
    obtain ⟨here, hhere, h⟩ := bind_eq_ok.mp h
    obtain ⟨more, hmore, ⟨⟩⟩ := bind_eq_ok.mp h
    have hhere := mapError_eq_ok.mp hhere
    obtain ⟨hall, hmem⟩ := ih hmore
    constructor
    · simpa using ⟨⟨here, hhere⟩, hall⟩
    · intro p
      rw [List.mem_append, List.mem_filter, hmem]
      simp only [List.mem_cons, exists_eq_or_imp, hhere, Except.ok.injEq, exists_eq_left']
      rw [and_or_left, and_comm (a := p ∈ here)]

theorem exists_filesOfAll (h : ∀ dir ∈ dirs, ∃ found, fs.filesBelow isSkipped dir = .ok found) :
    ∃ ps, filesOfAll fs dirs = .ok ps := by
  induction dirs with
  | nil => exact ⟨[], rfl⟩
  | cons dir dirs ih =>
    obtain ⟨⟨found, hfound⟩, hrest⟩ := List.forall_mem_cons.mp h
    obtain ⟨more, hmore⟩ := ih hrest
    exact ⟨_, by rw [filesOfAll, hfound, hmore]; rfl⟩

theorem files_eq_ok : files fs dirs = .ok ps ↔
    ∃ all, filesOfAll fs dirs = .ok all ∧ ps = dropRepeated (all.mergeSort Path.le) := by
  unfold files
  cases filesOfAll fs dirs with
  | error failure => exact ⟨nofun, nofun⟩
  | ok all =>
    constructor
    · rintro ⟨⟩
      exact ⟨all, rfl, rfl⟩
    · rintro ⟨_, ⟨⟩, rfl⟩
      rfl

theorem pairwise_files (h : files fs dirs = .ok ps) : ps.Pairwise IsBefore := by
  obtain ⟨all, -, rfl⟩ := files_eq_ok.mp h
  exact pairwise_dropRepeated_mergeSort all

/-- Which templates there are, provided that walks skip what is below a skipped name. -/
theorem mem_files (tree : fs.IsTree)
    (hskips : ∀ dir ∈ dirs, isSkipped (walkName dir) = true →
      fs.filesBelow isSkipped dir = .ok [])
    (h : files fs dirs = .ok ps) (p : Path) :
    p.components ∈ ps.map components ↔ ∃ dir ∈ dirs, HoldsTemplate fs dir p := by
  obtain ⟨all, hall, rfl⟩ := files_eq_ok.mp h
  obtain ⟨hfound, hmem⟩ := filesOfAll_eq_ok hall
  rw [components_mem_dropRepeated, List.mem_map]
  simp only [List.mem_mergeSort, hmem]
  constructor
  · rintro ⟨q, ⟨htemplate, dir, hdir, found, hfound, hq⟩, hcomponents⟩
    obtain ⟨names, hfile, hnames, rfl⟩ := (tree.mem_filesBelow (hskips dir hdir) hfound).mp hq
    refine ⟨dir, hdir, names, hfile, notMem_iff.mp hnames, ?_, ?_⟩
    · rw [← hcomponents, tree.components_of_findsFile hfile]
    · rwa [← isTemplate_iff, ← isTemplate_of_components hcomponents]
  · rintro ⟨dir, hdir, names, hfile, hnames, hcomponents, htemplate⟩
    have heq := tree.components_of_findsFile hfile
    rw [← hcomponents] at heq
    obtain ⟨found, hfound⟩ := hfound dir hdir
    refine ⟨_, ⟨?_, dir, hdir, found, hfound, ?_⟩, heq⟩
    · rw [isTemplate_of_components heq]
      exact isTemplate_iff.mpr htemplate
    · exact (tree.mem_filesBelow (hskips dir hdir) hfound).mpr
        ⟨names, hfile, notMem_iff.mpr hnames, rfl⟩

/-- The templates below directories are a canonical list, where a walk skips what is below a start
named `node_modules`, as it does unless that is a link: they are strictly in order, they are the
files with the name of a template that lie below one of the directories with no `node_modules`
on the way, and directories that cover one another give the same, whatever their order, how
often they are given, which lie inside of others and which are missing. -/
theorem files_canonical (tree : fs.IsTree)
    (hskips : ∀ dir ∈ dirs, isSkipped (walkName dir) = true →
      fs.filesBelow isSkipped dir = .ok [])
    (h : files fs dirs = .ok ps) :
    ps.Pairwise IsBefore ∧
      (∀ p : Path, p.components ∈ ps.map components ↔ ∃ dir ∈ dirs, HoldsTemplate fs dir p) ∧
      ∀ dirs' : List Path, (∀ dir ∈ dirs, Covers fs dirs' dir) →
        (∀ dir ∈ dirs', Covers fs dirs dir) →
        ∃ ps', files fs dirs' = .ok ps' ∧ ps'.map components = ps.map components := by
  refine ⟨pairwise_files h, mem_files tree hskips h, fun dirs' hdirs hdirs' => ?_⟩
  have hskips' : ∀ dir ∈ dirs', isSkipped (walkName dir) = true →
      fs.filesBelow isSkipped dir = .ok [] := by
    intro dir hdir hname
    rcases hdirs' dir hdir with hmem | hmissing | ⟨above, -, hin⟩
    · exact hskips dir hmem hname
    · exact filesBelow_of_isMissing hmissing _
    · exact absurd hname (by simp [hin.walkName])
  -- the other list of directories can be walked as well, and holds the same templates
  obtain ⟨all, hall, -⟩ := files_eq_ok.mp h
  have hfound : ∀ dir ∈ dirs', ∃ found, fs.filesBelow isSkipped dir = .ok found := by
    intro dir hdir
    rcases hdirs' dir hdir with hmem | hmissing | ⟨above, -, l, names, -, -, htarget, -⟩
    · exact (filesOfAll_eq_ok hall).1 dir hmem
    · exact ⟨[], filesBelow_of_isMissing hmissing _⟩
    · exact exists_filesBelow_of_target htarget _
  obtain ⟨all', hall'⟩ := exists_filesOfAll hfound
  have h' := files_eq_ok.mpr ⟨all', hall', rfl⟩
  refine ⟨_, h', components_eq_of_pairwise (pairwise_files h') (pairwise_files h) fun cs => ?_⟩
  constructor
  · intro hcs
    obtain ⟨p, -, rfl⟩ := List.mem_map.mp hcs
    obtain ⟨dir, hdir, hholds⟩ := (mem_files tree hskips' h' p).mp hcs
    exact (mem_files tree hskips h p).mpr ((hdirs' dir hdir).exists_holdsTemplate hholds)
  · intro hcs
    obtain ⟨p, -, rfl⟩ := List.mem_map.mp hcs
    obtain ⟨dir, hdir, hholds⟩ := (mem_files tree hskips h p).mp hcs
    exact (mem_files tree hskips' h' p).mpr ((hdirs dir hdir).exists_holdsTemplate hholds)

/-- Templates at two depths, one that is left out and a file that is none. -/
def Sample.shop : FileSystem :=
  ⟨[(["shop".toList], .directory),
    (["shop".toList, "views".toList], .directory),
    (["shop".toList, "views".toList, "page".toList], .directory),
    (["shop".toList, "views".toList, "page".toList, "index.html".toList], .file .empty false),
    (["shop".toList, "views".toList, "page.html.twig".toList], .file .empty false),
    (["shop".toList, "views".toList, "notes.txt".toList], .file .empty false),
    (["shop".toList, "node_modules".toList], .directory),
    (["shop".toList, "node_modules".toList, "page.twig".toList], .file .empty false)], []⟩

theorem files_canonical_shop :
    files Sample.shop [.ofString "/shop"] =
      .ok [.ofString "/shop/views/page/index.html", .ofString "/shop/views/page.html.twig"] ∧
    [Path.ofString "/shop/views/page/index.html",
      .ofString "/shop/views/page.html.twig"].Pairwise IsBefore ∧
    ∃ ps, files Sample.shop [.ofString "/gone", .ofString "/shop/views", .ofString "/shop",
        .ofString "/shop"] = .ok ps ∧
      ps.map components = [Path.ofString "/shop/views/page/index.html",
        .ofString "/shop/views/page.html.twig"].map components := by
  have tree : Sample.shop.IsTree := by decide +kernel
  have hskips : ∀ dir ∈ [Path.ofString "/shop"], isSkipped (walkName dir) = true →
      Sample.shop.filesBelow isSkipped dir = .ok [] := by
    intro dir hdir hname
    rw [List.mem_singleton.mp hdir] at hname
    exact absurd hname (by decide +kernel)
  have hfound : files Sample.shop [.ofString "/shop"] =
      .ok [.ofString "/shop/views/page/index.html", .ofString "/shop/views/page.html.twig"] := by
    obtain ⟨all, hall, heq⟩ := exists_ok_of_any (x := filesOfAll Sample.shop [.ofString "/shop"])
      (p := fun ps => ps = [.ofString "/shop/views/page/index.html",
        .ofString "/shop/views/page.html.twig"]) (by decide +kernel)
    obtain rfl := of_decide_eq_true heq
    refine files_eq_ok.mpr ⟨_, hall, ?_⟩
    rw [List.mergeSort_of_pairwise (by decide +kernel), dropRepeated, if_neg (by decide +kernel),
      dropRepeated]
    simp
  have hlies : LiesIn Sample.shop (.ofString "/shop") (.ofString "/shop/views") :=
    ⟨["shop".toList], ["views".toList], rfl, by simp, rfl, by decide +kernel, by decide +kernel⟩
  obtain ⟨hsorted, -, hsame⟩ := files_canonical tree hskips hfound
  refine ⟨hfound, hsorted, hsame _ ?_ ?_⟩
  · intro dir hdir
    exact .inl (by simp [List.mem_singleton.mp hdir])
  · simp only [List.forall_mem_cons, List.not_mem_nil, false_implies, implies_true, and_true]
    exact ⟨.inr (.inl (by decide +kernel)), .inr (.inr ⟨_, List.mem_singleton_self _, hlies⟩),
      .inl (List.mem_singleton_self _), .inl (List.mem_singleton_self _)⟩

end Template

end ExtensionAudit
