import ExtensionAudit.Proofs.Files.LastNames
/-
  What a path passes. On its way a path is led on by directories and by links; the
  places that it passes are those where it finds something else than a directory.
  So it leads where it led when files are put in places that it does not pass and
  that hold no directory. A path to a file passes the place that its last name
  stands for, where the file is or a link to it, and no front part of it does.

  Main statements: `Filled.follow`, `LeadsTo.endsAt`, `EndsAt.isDirectory_parent` and
  `EndsAt.target`.
-/

namespace ExtensionAudit

namespace FileSystem

/-- The places without a directory that a path finds on its way down from `here`, links
followed; a file counts only where the path ends. `jump` goes on behind a link. -/
def passedWith (fs : FileSystem) (jump : Location → List Text → List Location)
    (here : Location) : List Text → List Location
  | [] => []
  | piece :: rest =>
    match Path.componentOf? piece with
    | none => passedWith fs jump here rest
    | some .parent => passedWith fs jump here.dropLast rest
    | some _ =>
      if nameLimit < nameSize piece then []
      else
        let l := here ++ [piece]
        match fs.get? l with
        | none => [l]
        | some .directory => passedWith fs jump l rest
        | some (.file _ _) => if rest.isEmpty then [l] else []
        | some (.link target) =>
          l :: jump (if target.isAbsolute then [] else here) (target.pieces ++ rest)

/-- What the pieces of a path pass from a directory, through at most `links` links. -/
def passed (fs : FileSystem) : (links : Nat) → Location → List Text → List Location
  | 0 => fs.passedWith fun _ _ => []
  | links + 1 => fs.passedWith (fs.passed links)

/-- The places that a path passes. -/
def passedBy (fs : FileSystem) (p : Path) : List Location :=
  match fs.start p with
  | .ok here => fs.passed linkLimit here p.pieces
  | .error _ => []

/-- The place that the last name of a path stands for; a link there is not followed. -/
def placeOf? (fs : FileSystem) (p : Path) : Option Location :=
  (fs.lastStep p).toOption.map fun (dir, name) => dir ++ [name]

/-- A path leads to a file at a location. -/
def LeadsTo (fs : FileSystem) (p : Path) (l : Location) : Prop :=
  ∃ content executable, fs.target p = .ok (l, .file content executable)

variable {fs fs' : FileSystem} {through : Bool} {links : Nat} {here l o d : Location}
  {piece name : Text} {rest pieces front : List Text} {p above : Path} {e : Entry}
  {places : List Location}

/-! ## One step -/

theorem passed_nil : fs.passed links here [] = [] := by
  cases links <;> rfl

theorem passed_idle (hc : Path.componentOf? piece = none) :
    fs.passed links here (piece :: rest) = fs.passed links here rest := by
  cases links <;> simp only [passed, passedWith, hc]

theorem passed_parent (hc : Path.componentOf? piece = some .parent) :
    fs.passed links here (piece :: rest) = fs.passed links here.dropLast rest := by
  cases links <;> simp only [passed, passedWith, hc]

theorem passed_name (h : IsName piece) :
    fs.passed links here (piece :: rest) =
      match fs.get? (here ++ [piece]) with
      | none => [here ++ [piece]]
      | some .directory => fs.passed links (here ++ [piece]) rest
      | some (.file _ _) => if rest.isEmpty then [here ++ [piece]] else []
      | some (.link target) => (here ++ [piece]) ::
        match links with
        | 0 => []
        | links + 1 =>
          fs.passed links (if target.isAbsolute then [] else here) (target.pieces ++ rest) := by
  cases links <;> rw [passed, passedWith, h.component] <;> exact if_neg h.size

/-! ## Files in other places -/

/-- Files were put in some of these places, where no directory was, and all else is as it was. -/
structure Filled (places : List Location) (fs fs' : FileSystem) : Prop where
  workingDirectory : fs'.workingDirectory = fs.workingDirectory
  entries : ∀ l, fs'.get? l = fs.get? l ∨
    l ∈ places ∧ fs.get? l ≠ some .directory ∧
      ∃ content executable, fs'.get? l = some (.file content executable)

namespace Filled

theorem refl (places : List Location) (fs : FileSystem) : Filled places fs fs :=
  ⟨rfl, fun _ => .inl rfl⟩

theorem get?_of_not_mem (h : Filled places fs fs') (hl : l ∉ places) : fs'.get? l = fs.get? l :=
  (h.entries l).resolve_right fun hput => hl hput.1

theorem get?_of_directory (h : Filled places fs fs') (hl : fs.get? l = some .directory) :
    fs'.get? l = some .directory :=
  ((h.entries l).resolve_right fun hput => hput.2.1 hl).trans hl

/-- Pieces that pass none of the places lead where they led. -/
theorem follow (h : Filled places fs fs')
    (hp : ∀ l ∈ fs.passed links here pieces, l ∉ places) :
    fs'.follow through links here pieces = fs.follow through links here pieces := by
  induction links, here, pieces using follow_induction fs with
  | nil links here => rw [follow_nil, follow_nil]
  | idle links here piece rest hc ih =>
    rw [passed_idle hc] at hp
    rw [follow_idle hc, follow_idle hc, ih hp]
  | parent links here piece rest hc ih =>
    rw [passed_parent hc] at hp
    rw [follow_parent hc, follow_parent hc, ih hp]
  | tooLong links here piece rest hc hsize => rw [follow_tooLong hc hsize, follow_tooLong hc hsize]
  | missing links here piece rest hname hget =>
    rw [passed_name hname, hget] at hp
    rw [follow_name hname, follow_name hname, h.get?_of_not_mem (hp _ List.mem_cons_self), hget]
  | directory links here piece rest hname hget ih =>
    rw [passed_name hname, hget] at hp
    rw [follow_name hname, follow_name hname, h.get?_of_directory hget, hget]
    exact ih hp
  | file links here piece rest content executable hname hget =>
    rw [passed_name hname, hget] at hp
    rw [follow_name hname, follow_name hname, hget]
    cases rest with
    | nil => rw [h.get?_of_not_mem (hp _ List.mem_cons_self), hget]
    | cons next rest =>
      -- no path leads on through a file, whatever it holds
      rcases h.entries (here ++ [piece]) with hsame | ⟨-, -, content', executable', hput⟩
      · rw [hsame, hget]
      · rw [hput]
        rfl
  | link links here piece rest target hname hget ih =>
    rw [passed_name hname, hget] at hp
    rw [follow_name hname, follow_name hname, h.get?_of_not_mem (hp _ List.mem_cons_self), hget]
    dsimp only
    split
    · rfl
    · cases links with
      | zero => rfl
      | succ links => exact ih links rfl fun l hl => hp l (List.mem_cons_of_mem _ hl)

theorem resolve (h : Filled places fs fs') (hp : ∀ l ∈ fs.passedBy p, l ∉ places) :
    fs'.resolve through p = fs.resolve through p := by
  cases hstart : fs.start p with
  | error kind => rw [resolve_of_start_error hstart, resolve_of_start_error (start_eq_error hstart)]
  | ok here =>
    rw [passedBy, hstart] at hp
    rw [resolve_of_start hstart,
      resolve_of_start ((start_of_workingDirectory h.workingDirectory p).trans hstart), h.follow hp]

theorem readBytes (h : Filled places fs fs') (hp : ∀ l ∈ fs.passedBy p, l ∉ places) :
    fs'.readBytes p = fs.readBytes p := by
  unfold FileSystem.readBytes FileSystem.target
  rw [h.resolve hp]

theorem openEmpty (h : Filled places fs fs') (hp : ∀ l ∈ fs.passedBy p, l ∉ places) :
    (fs'.openEmpty p).map (·.2) = (fs.openEmpty p).map (·.2) := by
  unfold FileSystem.openEmpty
  rw [h.resolve hp]
  cases fs.resolve true p with
  | error kind => rfl
  | ok place =>
    cases place with
    | found l e => cases e <;> rfl
    | missing l rest =>
      dsimp only [bind, Except.bind]
      split <;> rfl

end Filled

/-! ## What is passed -/

/-- A path that is led on by links leads to nothing else where it may be led on by more. -/
theorem Reaches.of_le {place : Place} {more : Nat} (h : Reaches fs through links here pieces place)
    (hmore : links ≤ more) : Reaches fs through more here pieces place := by
  induction h generalizing more with
  | done => exact .done _ _
  | idle hc _ ih => exact .idle hc (ih hmore)
  | parent hc _ ih => exact .parent hc (ih hmore)
  | missing hname hget hrest => exact .missing hname hget hrest
  | directory hname hget _ ih => exact .directory hname hget (ih hmore)
  | file hname hget => exact .file hname hget
  | link hname hget hthrough => exact .link hname hget hthrough
  | jump hname hget hlast _ ih =>
    obtain ⟨fewer, rfl⟩ := Nat.exists_eq_add_of_lt hmore
    exact .jump hname hget hlast (ih (by omega))

theorem Reaches.unique {place place' : Place} {links' : Nat}
    (h : Reaches fs through links here pieces place)
    (h' : Reaches fs through links' here pieces place') : place = place' :=
  Except.ok.inj ((h.of_le (Nat.le_max_left links links')).follow.symm.trans
    (h'.of_le (Nat.le_max_right links links')).follow)

/-- What pieces pass on their way to a directory is passed by longer paths as well. -/
theorem Reaches.passed_append (h : Reaches fs true links here front (.found d .directory)) :
    fs.passed links here front ⊆ fs.passed links here (front ++ rest) := by
  induction h using Reaches.directory_induction with
  | done =>
    rw [passed_nil]
    exact List.nil_subset _
  | idle hc _ ih =>
    rw [List.cons_append, passed_idle hc, passed_idle hc]
    exact ih
  | parent hc _ ih =>
    rw [List.cons_append, passed_parent hc, passed_parent hc]
    exact ih
  | directory hname hget _ ih =>
    rw [List.cons_append, passed_name hname, passed_name hname, hget]
    exact ih
  | jump hname hget _ _ ih =>
    rw [List.cons_append, passed_name hname, passed_name hname, hget]
    dsimp only
    rw [← List.append_assoc]
    exact List.cons_subset_cons _ ih

theorem Reaches.passed_behind (h : Reaches fs true links here front (.found d .directory))
    (rest : List Text) : ∃ left, fs.passed left d rest ⊆ fs.passed links here (front ++ rest) := by
  induction h using Reaches.directory_induction with
  | done links => exact ⟨links, List.Subset.refl _⟩
  | idle hc _ ih =>
    rw [List.cons_append, passed_idle hc]
    exact ih
  | parent hc _ ih =>
    rw [List.cons_append, passed_parent hc]
    exact ih
  | directory hname hget _ ih =>
    rw [List.cons_append, passed_name hname, hget]
    exact ih
  | jump hname hget _ _ ih =>
    obtain ⟨left, hleft⟩ := ih
    rw [List.append_assoc] at hleft
    rw [List.cons_append, passed_name hname, hget]
    exact ⟨left, List.subset_cons_of_subset _ hleft⟩

/-- On the way to a directory only links are passed, and all of them lead on to it. -/
theorem Reaches.link_of_mem_passed (h : Reaches fs true links here front (.found d .directory))
    (hl : l ∈ fs.passed links here front) : ∃ dir name target left behind, l = dir ++ [name] ∧
      fs.get? l = some (.link target) ∧
      Reaches fs true left (if target.isAbsolute then [] else dir) (target.pieces ++ behind)
        (.found d .directory) := by
  induction h using Reaches.directory_induction with
  | done =>
    rw [passed_nil] at hl
    cases hl
  | idle hc _ ih => exact ih (by rwa [passed_idle hc] at hl)
  | parent hc _ ih => exact ih (by rwa [passed_parent hc] at hl)
  | directory hname hget _ ih => exact ih (by rwa [passed_name hname, hget] at hl)
  | jump hname hget _ hbehind ih =>
    rw [passed_name hname, hget] at hl
    rcases List.mem_cons.mp hl with rfl | hl
    · exact ⟨_, _, _, _, _, rfl, hget, hbehind⟩
    · exact ih hl

theorem Reaches.exists_of_mem_passed (h : Reaches fs true links here pieces (.found l e))
    {k : Location} (hk : k ∈ fs.passed links here pieces) : fs.get? k ≠ none := by
  generalize hplace : Place.found l e = place at h
  induction h with
  | done =>
    rw [passed_nil] at hk
    cases hk
  | idle hc _ ih => exact ih (by rwa [passed_idle hc] at hk) hplace
  | parent hc _ ih => exact ih (by rwa [passed_parent hc] at hk) hplace
  | directory hname hget _ ih => exact ih (by rwa [passed_name hname, hget] at hk) hplace
  | file hname hget =>
    rw [passed_name hname, hget] at hk
    rw [List.mem_singleton.mp hk, hget]
    nofun
  | jump hname hget _ _ ih =>
    rw [passed_name hname, hget] at hk
    rcases List.mem_cons.mp hk with rfl | hk
    · rw [hget]
      nofun
    · exact ih hk hplace
  | link _ _ hthrough => cases hthrough
  | missing => cases hplace

/-! ## Steps to a directory -/

theorem Reaches.of_idle {idle : List Text} {place : Place}
    (hidle : ∀ piece ∈ idle, Path.componentOf? piece = none)
    (h : Reaches fs through links here rest place) :
    Reaches fs through links here (idle ++ rest) place := by
  induction idle with
  | nil => exact h
  | cons piece idle ih =>
    obtain ⟨hpiece, hidle⟩ := List.forall_mem_cons.mp hidle
    exact .idle hpiece (ih hidle)

theorem Reaches.of_steps (h : Reaches fs true links here pieces (.found d .directory))
    {pieces' : List Text}
    (hsteps : pieces'.filterMap Path.componentOf? = pieces.filterMap Path.componentOf?) :
    Reaches fs true links here pieces' (.found d .directory) := by
  -- on the way of the one path; the other one has the next step behind pieces that are none
  induction h using Reaches.directory_induction generalizing pieces' with
  | done =>
    rw [List.filterMap_nil, List.filterMap_eq_nil_iff] at hsteps
    rw [← List.append_nil pieces']
    exact .of_idle hsteps (.done _ _)
  | idle hc _ ih => exact ih (by rwa [List.filterMap_cons, hc] at hsteps)
  | parent hc _ ih =>
    rw [List.filterMap_cons, hc, List.filterMap_eq_cons_iff] at hsteps
    obtain ⟨idle, piece', rest', rfl, hidle, hc', hrest⟩ := hsteps
    exact .of_idle hidle (.parent hc' (ih hrest))
  | directory hname hget _ ih =>
    rw [List.filterMap_cons, hname.component, List.filterMap_eq_cons_iff] at hsteps
    obtain ⟨idle, piece', rest', rfl, hidle, hc', hrest⟩ := hsteps
    cases eq_normal_of_componentOf? (by simp) hc'
    exact .of_idle hidle (.directory hname hget (ih hrest))
  | jump hname hget _ _ ih =>
    rw [List.filterMap_cons, hname.component, List.filterMap_eq_cons_iff] at hsteps
    obtain ⟨idle, piece', rest', rfl, hidle, hc', hrest⟩ := hsteps
    cases eq_normal_of_componentOf? (by simp) hc'
    refine .of_idle hidle (.jump hname hget (Bool.and_false _) (ih ?_))
    rw [List.filterMap_append, List.filterMap_append, hrest]

/-! ## Paths to files -/

/-- The last name of a path stands for a place, and from there the path leads to a file. -/
def EndsAt (fs : FileSystem) (p : Path) (o : Location) : Prop :=
  ∃ here front dir name, fs.start p = .ok here ∧ p.pieces = front ++ [name] ∧ IsName name ∧
    Reaches fs true linkLimit here front (.found dir .directory) ∧ o = dir ++ [name] ∧
    ∃ l content executable left,
      Reaches fs true left dir [name] (.found l (.file content executable))

/-- A path that leads to a file ends with a name: a directory is all that another piece at the end
can lead to. -/
theorem LeadsTo.endsAt (h : fs.LeadsTo p l) : ∃ o, EndsAt fs p o := by
  obtain ⟨content, executable, htarget⟩ := h
  obtain ⟨here, hstart, hfollow⟩ := resolve_eq_ok_iff.mp (target_eq_ok_iff.mp htarget)
  rcases List.eq_nil_or_concat p.pieces with hnil | ⟨front, name, hpieces⟩
  · exact absurd hnil p.pieces_ne_nil
  rw [List.concat_eq_append] at hpieces
  rw [hpieces] at hfollow
  obtain ⟨dir, hfront, left, hlast⟩ :=
    (Reaches.of_follow hfollow).of_append (List.cons_ne_nil _ _) (by simp)
  have hname : IsName name := by
    cases hlast with
    | idle _ hnil => cases hnil
    | parent _ hnil => cases hnil
    | directory _ _ hnil => cases hnil
    | file hname _ => exact hname
    | jump hname _ _ _ => exact hname
  exact ⟨_, here, front, dir, name, hstart, hpieces, hname, hfront, rfl, l, content, executable,
    left, hlast⟩

theorem LeadsTo.exists_of_mem_passedBy (h : fs.LeadsTo p l) {k : Location}
    (hk : k ∈ fs.passedBy p) : fs.get? k ≠ none := by
  obtain ⟨content, executable, htarget⟩ := h
  obtain ⟨here, hstart, hfollow⟩ := resolve_eq_ok_iff.mp (target_eq_ok_iff.mp htarget)
  rw [passedBy, hstart] at hk
  exact (Reaches.of_follow hfollow).exists_of_mem_passed hk

namespace EndsAt

theorem lastStep (h : EndsAt fs p o) : ∃ dir name, fs.lastStep p = .ok (dir, name) ∧
    o = dir ++ [name] ∧ IsName name ∧ p.text.getLast? ≠ some '/' := by
  obtain ⟨here, front, dir, name, hstart, hpieces, hname, hfront, rfl, -⟩ := h
  refine ⟨dir, name, (lastStep_of_pieces hpieces hname.ne_nil).mpr ⟨here, hstart, hfront.follow⟩,
    rfl, hname, fun hslash => ?_⟩
  obtain ⟨before, htext⟩ := List.getLast?_eq_some_iff.mp hslash
  have hend : p.pieces.getLast? = some [] := by
    rw [Path.pieces, htext, Text.splitAt_concat_of_sep (by simp), List.getLast?_concat]
  rw [hpieces, List.getLast?_concat, Option.some.injEq] at hend
  exact hname.ne_nil hend

theorem placeOf? (h : EndsAt fs p o) : fs.placeOf? p = some o := by
  obtain ⟨dir, name, hlast, rfl, -⟩ := h.lastStep
  rw [FileSystem.placeOf?, hlast]
  rfl

theorem entry (h : EndsAt fs p o) : ∃ e, fs.get? o = some e ∧ e ≠ .directory := by
  obtain ⟨here, front, dir, name, -, -, hname, -, rfl, l, content, executable, left, hlast⟩ := h
  cases hlast with
  | idle _ hnil => cases hnil
  | parent _ hnil => cases hnil
  | directory _ _ hnil => cases hnil
  | file _ hget => exact ⟨_, hget, nofun⟩
  | jump _ hget _ _ => exact ⟨_, hget, nofun⟩

theorem mem_passedBy (h : EndsAt fs p o) : o ∈ fs.passedBy p := by
  obtain ⟨e, hget, he⟩ := h.entry
  obtain ⟨here, front, dir, name, hstart, hpieces, hname, hfront, rfl, -⟩ := h
  rw [passedBy, hstart, hpieces]
  obtain ⟨left, hbehind⟩ := hfront.passed_behind [name]
  refine hbehind ?_
  rw [passed_name hname, hget]
  cases e with
  | directory => exact absurd rfl he
  | file content executable => exact List.mem_cons_self
  | link target => exact List.mem_cons_self

/-- No front part of the path passes the place: whatever leads on from there leads to the file. -/
theorem not_mem_passed {front : List Text} (h : EndsAt fs p o)
    (hfront : Reaches fs true links here front (.found d .directory)) :
    o ∉ fs.passed links here front := by
  intro hmem
  obtain ⟨dir', name', target, left, behind, ho, hget, hon⟩ := hfront.link_of_mem_passed hmem
  obtain ⟨here', front', dir, name, -, -, hname, -, rfl, l, content, executable, left', hlast⟩ := h
  obtain ⟨rfl, -⟩ := List.append_inj' ho rfl
  -- a link on the way leads to a directory, and as the last name the same link leads to a file
  cases hlast with
  | idle _ hnil => cases hnil
  | parent _ hnil => cases hnil
  | directory _ _ hnil => cases hnil
  | file _ hfile => cases hfile.symm.trans hget
  | jump _ hlink _ hfile =>
    cases hlink.symm.trans hget
    rw [List.append_nil] at hfile
    cases behind with
    | nil =>
      rw [List.append_nil] at hon
      cases hfile.unique hon
    | cons next behind =>
      obtain ⟨k, hk, -⟩ := hon.of_append (List.cons_ne_nil _ _) (by simp)
      cases hfile.unique hk

/-- The directory above a file is there. -/
theorem isDirectory_parent (h : EndsAt fs p o) (habove : p.parent? = some above) :
    above.text = [] ∨ fs.isDirectory above = true := by
  obtain ⟨here, front, dir, name, hstart, hpieces, hname, hfront, -⟩ := h
  have hsteps : p.steps = front.filterMap Path.componentOf? ++ [.normal name] := by
    rw [Path.steps, hpieces, List.filterMap_append, List.filterMap_cons, hname.component,
      List.filterMap_nil]
  -- the path above has the same steps, but perhaps other pieces
  obtain ⟨above', habove', htext, habsolute, hfront'⟩ :=
    Path.exists_parent? hsteps (by simp) (by simp)
  cases habove.symm.trans habove'
  by_cases hempty : above.text = []
  · exact .inl hempty
  obtain ⟨-, hzero, hsize, hhere⟩ := start_eq_ok_iff.mp hstart
  obtain ⟨more, hmore⟩ := htext
  have hstart' : fs.start above = .ok here := start_eq_ok_iff.mpr ⟨hempty,
    fun hmem => hzero (hmore ▸ List.mem_append_left _ hmem),
    Nat.le_trans (by rw [← hmore, nameSize_append]; exact Nat.le_add_right _ _) hsize,
    by rw [habsolute, hhere]⟩
  exact .inr (isDirectory_iff.mpr ⟨dir, resolve_eq_ok_iff.mpr
    ⟨here, hstart', (hfront.of_steps hfront').follow⟩⟩)

/-- The name is looked up where it was, whatever files are put there and in places that the path
does not pass. -/
theorem lastStep_of_filled (h : EndsAt fs p o) (hfs : Filled places fs fs')
    (hp : ∀ l ∈ fs.passedBy p, l ∈ places → l = o) : ∃ front dir name,
      p.pieces = front ++ [name] ∧ IsName name ∧ o = dir ++ [name] ∧
        fs'.lastStep p = .ok (dir, name) := by
  have hends := h
  obtain ⟨here, front, dir, name, hstart, hpieces, hname, hfront, rfl, -⟩ := h
  have hfront' : fs'.follow true linkLimit here front = .ok (.found dir .directory) := by
    rw [hfs.follow fun l hl hput => ?_, hfront.follow]
    have hpassed : l ∈ fs.passedBy p := by
      rw [passedBy, hstart, hpieces]
      exact hfront.passed_append hl
    exact hends.not_mem_passed hfront (hp l hpassed hput ▸ hl)
  exact ⟨front, dir, name, hpieces, hname, rfl, (lastStep_of_pieces hpieces hname.ne_nil).mpr
    ⟨here, (start_of_workingDirectory hfs.workingDirectory p).trans hstart, hfront'⟩⟩

theorem placeOf?_of_filled (h : EndsAt fs p o) (hfs : Filled places fs fs')
    (hp : ∀ l ∈ fs.passedBy p, l ∈ places → l = o) : fs'.placeOf? p = some o := by
  obtain ⟨front, dir, name, -, -, rfl, hlast⟩ := h.lastStep_of_filled hfs hp
  rw [FileSystem.placeOf?, hlast]
  rfl

/-- A file that is put in the place is what the path leads to. -/
theorem target (h : EndsAt fs p o) (hfs : Filled places fs fs')
    (hp : ∀ l ∈ fs.passedBy p, l ∈ places → l = o) {content : ByteArray} {executable : Bool}
    (hget : fs'.get? o = some (.file content executable)) :
    fs'.target p = .ok (o, .file content executable) := by
  obtain ⟨front, dir, name, hpieces, hname, rfl, hlast⟩ := h.lastStep_of_filled hfs hp
  exact target_eq_ok_iff.mpr (resolve_of_lastStep hpieces hname hlast hget)

end EndsAt

/-! ## Texts -/

theorem isFile_iff : fs.isFile p = true ↔ ∃ l, fs.LeadsTo p l := by
  unfold isFile LeadsTo
  split
  · rename_i l content executable htarget
    exact ⟨fun _ => ⟨l, content, executable, htarget⟩, fun _ => rfl⟩
  · rename_i hno
    exact ⟨nofun, fun ⟨l, content, executable, htarget⟩ => (hno l content executable htarget).elim⟩

theorem readText_of_readBytes (h : fs'.readBytes p = fs.readBytes p) :
    fs'.readText p = fs.readText p := by
  unfold readText
  rw [h]

theorem readText_of_target {text : String} {executable : Bool}
    (h : fs.target p = .ok (l, .file text.toUTF8 executable)) : fs.readText p = .ok text := by
  have hbytes : fs.readBytes p = .ok text.toUTF8 := by
    unfold readBytes
    rw [h]
    rfl
  have htext : String.fromUTF8? text.toUTF8 = some text := dif_pos text.isValidUTF8
  unfold readText
  rw [hbytes]
  dsimp only [bind, Except.bind]
  rw [htext]
  rfl

theorem leadsTo_of_readText {text : String} (h : fs.readText p = .ok text) :
    ∃ l, fs.LeadsTo p l := by
  unfold readText readBytes at h
  cases htarget : fs.target p with
  | error kind =>
    rw [htarget] at h
    cases h
  | ok a =>
    obtain ⟨l, e⟩ := a
    rw [htarget] at h
    cases e with
    | file content executable => exact ⟨l, content, executable, htarget⟩
    | directory => cases h
    | link target => cases h

end FileSystem

end ExtensionAudit
