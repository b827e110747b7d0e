import ExtensionAudit.Files.Write
import ExtensionAudit.Proofs.Results
import ExtensionAudit.Proofs.Text.Fields
/-
  Resolving paths. A step looks up one name, and where it finds nothing the path
  leads no further; so what a path does not lead to is found once it is put there.
  Renaming resolves one path and the last name of another.

  Main statements: `follow_eq_ok_iff` (following a path reaches a place step by
  step), `Reaches.of_append` and `Reaches.append` (pieces behind others),
  `follow_of_missing` and `rename_eq`.
-/

namespace ExtensionAudit

namespace FileSystem

/-- A piece that names an entry of a directory. -/
structure IsName (piece : Text) : Prop where
  component : Path.componentOf? piece = some (.normal piece)
  size : ¬nameLimit < nameSize piece

/-- Where the pieces of a path lead from a directory, over so many links at most. -/
inductive Reaches (fs : FileSystem) (through : Bool) : Nat → Location → List Text → Place → Prop where
  | done (links : Nat) (here : Location) : Reaches fs through links here [] (.found here .directory)
  | idle {links here piece rest place} : Path.componentOf? piece = none →
      Reaches fs through links here rest place → Reaches fs through links here (piece :: rest) place
  | parent {links here piece rest place} : Path.componentOf? piece = some .parent →
      Reaches fs through links here.dropLast rest place →
      Reaches fs through links here (piece :: rest) place
  | missing {links here piece rest} : IsName piece → fs.get? (here ++ [piece]) = none →
      rest.all (·.isEmpty) = true →
      Reaches fs through links here (piece :: rest) (.missing (here ++ [piece]) rest)
  | directory {links here piece rest place} : IsName piece →
      fs.get? (here ++ [piece]) = some .directory →
      Reaches fs through links (here ++ [piece]) rest place →
      Reaches fs through links here (piece :: rest) place
  | file {links here piece content executable} : IsName piece →
      fs.get? (here ++ [piece]) = some (.file content executable) →
      Reaches fs through links here [piece] (.found (here ++ [piece]) (.file content executable))
  | link {links here piece target} : IsName piece → fs.get? (here ++ [piece]) = some (.link target) →
      through = false →
      Reaches fs through links here [piece] (.found (here ++ [piece]) (.link target))
  | jump {links here piece rest target place} : IsName piece →
      fs.get? (here ++ [piece]) = some (.link target) → (rest.isEmpty && !through) = false →
      Reaches fs through links (if target.isAbsolute then [] else here) (target.pieces ++ rest)
        place →
      Reaches fs through (links + 1) here (piece :: rest) place

variable {fs fs' : FileSystem} {through : Bool} {links : Nat} {here l : Location} {piece : Text}
  {rest pieces : List Text} {e : Entry} {c : Path.Component}

/-! ## One step -/

theorem follow_nil : fs.follow through links here [] = .ok (.found here .directory) := by
  cases links <;> rfl

theorem follow_idle (hc : Path.componentOf? piece = none) :
    fs.follow through links here (piece :: rest) = fs.follow through links here rest := by
  cases links <;> simp only [follow, followWith, hc]

theorem follow_parent (hc : Path.componentOf? piece = some .parent) :
    fs.follow through links here (piece :: rest) = fs.follow through links here.dropLast rest := by
  cases links <;> simp only [follow, followWith, hc]

theorem eq_normal_of_componentOf? (hne : c ≠ .parent) (hc : Path.componentOf? piece = some c) :
    c = .normal piece := by
  unfold Path.componentOf? at hc
  split at hc
  · cases hc
  · split at hc
    · exact (hne (Option.some.inj hc).symm).elim
    · exact (Option.some.inj hc).symm

theorem follow_tooLong (hc : Path.componentOf? piece = some (.normal piece))
    (hsize : nameLimit < nameSize piece) :
    fs.follow through links here (piece :: rest) = .error .nameTooLong := by
  cases links <;> simp only [follow, followWith, hc, hsize, if_true]

theorem follow_name (h : IsName piece) :
    fs.follow through links here (piece :: rest) =
      match fs.get? (here ++ [piece]) with
      | none =>
        if rest.all (·.isEmpty) then .ok (.missing (here ++ [piece]) rest) else .error .notFound
      | some .directory => fs.follow through links (here ++ [piece]) rest
      | some (.file content executable) =>
        if rest.isEmpty then .ok (.found (here ++ [piece]) (.file content executable))
        else .error .notADirectory
      | some (.link target) =>
        if rest.isEmpty && !through then .ok (.found (here ++ [piece]) (.link target))
        else match links with
          | 0 => .error .linkLoop
          | links + 1 =>
            fs.follow through links (if target.isAbsolute then [] else here)
              (target.pieces ++ rest) := by
  cases links <;> rw [follow, followWith, h.component] <;> exact if_neg h.size

/-- Following a path, step by step: along its pieces, and over a link to fewer links. -/
theorem follow_induction (fs : FileSystem) {motive : Nat → Location → List Text → Prop}
    (nil : ∀ links here, motive links here [])
    (idle : ∀ links here piece rest, Path.componentOf? piece = none →
      motive links here rest → motive links here (piece :: rest))
    (parent : ∀ links here piece rest, Path.componentOf? piece = some .parent →
      motive links here.dropLast rest → motive links here (piece :: rest))
    (tooLong : ∀ links here piece rest, Path.componentOf? piece = some (.normal piece) →
      nameLimit < nameSize piece → motive links here (piece :: rest))
    (missing : ∀ links here piece rest, IsName piece → fs.get? (here ++ [piece]) = none →
      motive links here (piece :: rest))
    (directory : ∀ links here piece rest, IsName piece →
      fs.get? (here ++ [piece]) = some .directory →
      motive links (here ++ [piece]) rest → motive links here (piece :: rest))
    (file : ∀ links here piece rest content executable, IsName piece →
      fs.get? (here ++ [piece]) = some (.file content executable) →
      motive links here (piece :: rest))
    (link : ∀ links here piece rest target, IsName piece →
      fs.get? (here ++ [piece]) = some (.link target) →
      (∀ fewer, links = fewer + 1 →
        motive fewer (if target.isAbsolute then [] else here) (target.pieces ++ rest)) →
      motive links here (piece :: rest))
    (links : Nat) (here : Location) (pieces : List Text) : motive links here pieces := by
  -- a link may put more pieces in front of the rest than there were, but leaves fewer links
  induction links using Nat.strongRecOn generalizing here pieces with
  | ind links jump =>
    induction pieces generalizing here with
    | nil => exact nil links here
    | cons piece rest ih =>
      cases hc : Path.componentOf? piece with
      | none => exact idle links here piece rest hc (ih here)
      | some c =>
        by_cases hparent : c = .parent
        · exact parent links here piece rest (hparent ▸ hc) (ih here.dropLast)
        obtain rfl := eq_normal_of_componentOf? hparent hc
        by_cases hsize : nameLimit < nameSize piece
        · exact tooLong links here piece rest hc hsize
        have hname : IsName piece := ⟨hc, hsize⟩
        cases hget : fs.get? (here ++ [piece]) with
        | none => exact missing links here piece rest hname hget
        | some e =>
          cases e with
          | directory => exact directory links here piece rest hname hget (ih _)
          | file content executable => exact file links here piece rest _ _ hname hget
          | link target =>
            apply link links here piece rest target hname hget
            intro fewer heq
            have hfewer : fewer < links := by omega
            exact jump fewer hfewer _ _

/-! ## Links at the end -/

theorem follow_true {place : Except IoKind Place} (h : fs.follow false links here pieces = place)
    (hlink : ∀ l target, place ≠ .ok (.found l (.link target))) :
    fs.follow true links here pieces = place := by
  subst h
  induction links, here, pieces using follow_induction fs with
  | nil links here => rw [follow_nil, follow_nil]
  | idle links here piece rest hc ih =>
    rw [follow_idle hc] at hlink ⊢
    rw [follow_idle hc, ih hlink]
  | parent links here piece rest hc ih =>
    rw [follow_parent hc] at hlink ⊢
    rw [follow_parent hc, ih hlink]
  | tooLong links here piece rest hc hsize => rw [follow_tooLong hc hsize, follow_tooLong hc hsize]
  | missing links here piece rest hname hget =>
    rw [follow_name hname, follow_name hname, hget]
  | directory links here piece rest hname hget ih =>
    rw [follow_name hname, hget] at hlink ⊢
    rw [follow_name hname, hget]
    exact ih hlink
  | file links here piece rest content executable hname hget =>
    rw [follow_name hname, follow_name hname, hget]
  | link links here piece rest target hname hget ih =>
    rw [follow_name hname, hget] at hlink ⊢
    rw [follow_name hname, hget]
    -- a link at the end is what the path leads to
    have hrest : rest.isEmpty = false := by
      cases rest with
      | nil => exact absurd rfl (hlink (here ++ [piece]) target)
      | cons d rest => rfl
    simp only [hrest] at hlink ⊢
    cases links with
    | zero => rfl
    | succ links => exact ih links rfl hlink

/-! ## What a path reaches -/

theorem Reaches.of_follow {place : Place} (h : fs.follow through links here pieces = .ok place) :
    Reaches fs through links here pieces place := by
  induction links, here, pieces using follow_induction fs with
  | nil links here =>
    rw [follow_nil] at h
    cases h
    exact .done links here
  | idle links here piece rest hc ih => exact .idle hc (ih (by rwa [follow_idle hc] at h))
  | parent links here piece rest hc ih => exact .parent hc (ih (by rwa [follow_parent hc] at h))
  | tooLong links here piece rest hc hsize =>
    rw [follow_tooLong hc hsize] at h
    cases h
  | missing links here piece rest hname hget =>
    rw [follow_name hname, hget] at h
    simp only at h
    split at h
    · rename_i hrest
      cases h
      exact .missing hname hget hrest
    · cases h
  | directory links here piece rest hname hget ih =>
    rw [follow_name hname, hget] at h
    exact .directory hname hget (ih h)
  | file links here piece rest content executable hname hget =>
    rw [follow_name hname, hget] at h
    simp only at h
    split at h
    · rename_i hrest
      obtain rfl := List.isEmpty_iff.mp hrest
      cases h
      exact .file hname hget
    · cases h
  | link links here piece rest target hname hget ih =>
    rw [follow_name hname, hget] at h
    simp only at h
    split at h
    · rename_i hlast
      simp only [Bool.and_eq_true, List.isEmpty_iff, Bool.not_eq_true'] at hlast
      obtain ⟨rfl, hthrough⟩ := hlast
      cases h
      exact .link hname hget hthrough
    · rename_i hlast
      cases links with
      | zero => cases h
      | succ links => exact .jump hname hget (by simpa using hlast) (ih links rfl h)

theorem Reaches.follow {place : Place} (h : Reaches fs through links here pieces place) :
    fs.follow through links here pieces = .ok place := by
  induction h with
  | done links here => exact follow_nil
  | idle hc _ ih => rw [follow_idle hc, ih]
  | parent hc _ ih => rw [follow_parent hc, ih]
  | missing hname hget hrest => rw [follow_name hname, hget]; simp only [hrest, if_true]
  | directory hname hget _ ih => rw [follow_name hname, hget]; exact ih
  | file hname hget => rw [follow_name hname, hget]; rfl
  | link hname hget hthrough => rw [follow_name hname, hget]; simp [hthrough]
  | jump hname hget hlast _ ih => rw [follow_name hname, hget]; simpa [hlast] using ih

theorem follow_eq_ok_iff {place : Place} :
    fs.follow through links here pieces = .ok place ↔
      Reaches fs through links here pieces place :=
  ⟨.of_follow, Reaches.follow⟩

/-- Following a path to a directory, step by step: only directories and links are on the way. -/
theorem Reaches.directory_induction {d : Location}
    {motive : ∀ links here pieces,
      Reaches fs through links here pieces (.found d .directory) → Prop}
    (done : ∀ links, motive links d [] (.done links d))
    (idle : ∀ {links here piece rest} (hc : Path.componentOf? piece = none)
      (h : Reaches fs through links here rest (.found d .directory)),
      motive links here rest h → motive links here (piece :: rest) (.idle hc h))
    (parent : ∀ {links here piece rest} (hc : Path.componentOf? piece = some .parent)
      (h : Reaches fs through links here.dropLast rest (.found d .directory)),
      motive links here.dropLast rest h → motive links here (piece :: rest) (.parent hc h))
    (directory : ∀ {links here piece rest} (hname : IsName piece)
      (hget : fs.get? (here ++ [piece]) = some .directory)
      (h : Reaches fs through links (here ++ [piece]) rest (.found d .directory)),
      motive links (here ++ [piece]) rest h →
        motive links here (piece :: rest) (.directory hname hget h))
    (jump : ∀ {links here piece rest target} (hname : IsName piece)
      (hget : fs.get? (here ++ [piece]) = some (.link target))
      (hlast : (rest.isEmpty && !through) = false)
      (h : Reaches fs through links (if target.isAbsolute then [] else here)
        (target.pieces ++ rest) (.found d .directory)),
      motive links (if target.isAbsolute then [] else here) (target.pieces ++ rest) h →
        motive (links + 1) here (piece :: rest) (.jump hname hget hlast h))
    {links : Nat} {here : Location} {pieces : List Text}
    (h : Reaches fs through links here pieces (.found d .directory)) :
    motive links here pieces h := by
  have hall {links here pieces place} (h : Reaches fs through links here pieces place)
      (hplace : place = .found d .directory) : motive links here pieces (hplace ▸ h) := by
    induction h with
    | done links here =>
      cases hplace
      exact done links
    | idle hc h ih =>
      subst hplace
      exact idle hc h (ih rfl)
    | parent hc h ih =>
      subst hplace
      exact parent hc h (ih rfl)
    | directory hname hget h ih =>
      subst hplace
      exact directory hname hget h (ih rfl)
    | jump hname hget hlast h ih =>
      subst hplace
      exact jump hname hget hlast h (ih rfl)
    | missing => cases hplace
    | file => cases hplace
    | link => cases hplace
  exact hall h rfl

/-- What is found stands where it is found, and where something is missing nothing stands; a
directory may be the one where the path begins. -/
def Place.Stands (fs : FileSystem) : Place → Prop
  | .found l e => e = .directory ∨ fs.get? l = some e
  | .missing l _ => fs.get? l = none

theorem Reaches.stands {place : Place} (h : Reaches fs through links here pieces place) :
    place.Stands fs := by
  induction h with
  | done => exact .inl rfl
  | missing _ hget _ => exact hget
  | file _ hget => exact .inr hget
  | link _ hget _ => exact .inr hget
  | idle _ _ ih => exact ih
  | parent _ _ ih => exact ih
  | directory _ _ _ ih => exact ih
  | jump _ _ _ _ ih => exact ih

theorem get?_of_found (h : fs.follow through links here pieces = .ok (.found l e))
    (he : e ≠ .directory) : fs.get? l = some e :=
  Or.resolve_left (Reaches.of_follow h).stands he

theorem get?_of_missing (h : fs.follow through links here pieces = .ok (.missing l rest)) :
    fs.get? l = none :=
  (Reaches.of_follow h).stands

/-! ## Pieces behind others -/

variable {front : List Text} {d : Location} {place : Place}

/-- Pieces behind others go on from the directory that those in front of them lead to, unless all
of them are empty and nothing stands there. -/
theorem Reaches.of_append (hrest : rest ≠ [])
    (hnamed : ∀ l left, place = .missing l left → rest.all (·.isEmpty) = false)
    (h : Reaches fs through links here (front ++ rest) place) :
    ∃ d, Reaches fs true links here front (.found d .directory) ∧
      ∃ left, Reaches fs through left d rest place := by
  generalize hpieces : front ++ rest = pieces at h
  -- the pieces in front, one step after the other; a link puts its own there
  induction h generalizing front with
  | done links here => exact absurd (List.append_eq_nil_iff.mp hpieces).2 hrest
  | @idle links _ _ _ _ hc hbehind ih =>
    cases front with
    | nil =>
      cases hpieces
      exact ⟨_, .done _ _, links, .idle hc hbehind⟩
    | cons piece front =>
      cases hpieces
      obtain ⟨d, hd, hlast⟩ := ih hnamed rfl
      exact ⟨d, .idle hc hd, hlast⟩
  | @parent links _ _ _ _ hc hbehind ih =>
    cases front with
    | nil =>
      cases hpieces
      exact ⟨_, .done _ _, links, .parent hc hbehind⟩
    | cons piece front =>
      cases hpieces
      obtain ⟨d, hd, hlast⟩ := ih hnamed rfl
      exact ⟨d, .parent hc hd, hlast⟩
  | @missing links _ _ _ hpiece hget hempty =>
    cases front with
    | nil =>
      cases hpieces
      exact ⟨_, .done _ _, links, .missing hpiece hget hempty⟩
    | cons piece front =>
      cases hpieces
      have hall : (front ++ rest).all (·.isEmpty) = true := hempty
      rw [List.all_append, hnamed _ _ rfl, Bool.and_false] at hall
      cases hall
  | @directory links _ _ _ _ hpiece hget hbehind ih =>
    cases front with
    | nil =>
      cases hpieces
      exact ⟨_, .done _ _, links, .directory hpiece hget hbehind⟩
    | cons piece front =>
      cases hpieces
      obtain ⟨d, hd, hlast⟩ := ih hnamed rfl
      exact ⟨d, .directory hpiece hget hd, hlast⟩
  | @file links _ _ _ _ hpiece hget =>
    cases front with
    | nil =>
      cases hpieces
      exact ⟨_, .done _ _, links, .file hpiece hget⟩
    | cons piece front =>
      obtain ⟨-, hnil⟩ := List.cons.inj hpieces
      exact absurd (List.append_eq_nil_iff.mp hnil).2 hrest
  | @link links _ _ _ hpiece hget hthrough =>
    cases front with
    | nil =>
      cases hpieces
      exact ⟨_, .done _ _, links, .link hpiece hget hthrough⟩
    | cons piece front =>
      obtain ⟨-, hnil⟩ := List.cons.inj hpieces
      exact absurd (List.append_eq_nil_iff.mp hnil).2 hrest
  | @jump links _ _ _ target _ hpiece hget hlast hbehind ih =>
    cases front with
    | nil =>
      cases hpieces
      exact ⟨_, .done _ _, links + 1, .jump hpiece hget hlast hbehind⟩
    | cons piece front =>
      cases hpieces
      obtain ⟨d, hd, hlast⟩ := @ih (target.pieces ++ front) hnamed (by simp)
      exact ⟨d, .jump hpiece hget (by simp) hd, hlast⟩

/-- Pieces lead on from the directory that those in front of them lead to, where they need no
links. -/
theorem Reaches.append (hlast : (rest.isEmpty && !through) = false)
    (hrest : ∀ links, Reaches fs through links d rest place)
    (h : Reaches fs true links here front (.found d .directory)) :
    Reaches fs through links here (front ++ rest) place := by
  generalize hdir : Place.found d .directory = reached at h
  induction h with
  | done links =>
    cases hdir
    exact hrest links
  | idle hc _ ih => exact .idle hc (ih hdir)
  | parent hc _ ih => exact .parent hc (ih hdir)
  | directory hname hget _ ih => exact .directory hname hget (ih hdir)
  | @jump _ _ _ behind _ _ hname hget _ _ ih =>
    have hjump := ih hdir
    rw [List.append_assoc] at hjump
    refine .jump hname hget ?_ hjump
    cases behind with
    | nil => exact hlast
    | cons piece behind => rfl
  | link _ _ hthrough => cases hthrough
  | missing => cases hdir
  | file => cases hdir

/-! ## More entries -/

/-- A file that is put where a path found nothing is what the path leads to. -/
theorem follow_of_missing {content : ByteArray} {executable : Bool}
    (hfs : ∀ k, fs'.get? k = if k = l then some (.file content executable) else fs.get? k)
    (h : fs.follow through links here pieces = .ok (.missing l [])) :
    fs'.follow through links here pieces = .ok (.found l (.file content executable)) := by
  have hnone := get?_of_missing h
  -- every entry on the way is there still, as nothing stood where the file is now
  have hother {k : Location} {e : Entry} (hk : fs.get? k = some e) : fs'.get? k = some e := by
    rw [hfs, if_neg fun heq => by simp [heq, hnone] at hk, hk]
  rw [follow_eq_ok_iff] at h ⊢
  generalize hplace : Place.missing l [] = place at h
  induction h with
  | missing hname _ _ =>
    cases hplace
    exact .file hname (by rw [hfs, if_pos rfl])
  | idle hc _ ih => exact .idle hc (ih hplace)
  | parent hc _ ih => exact .parent hc (ih hplace)
  | directory hname hget _ ih => exact .directory hname (hother hget) (ih hplace)
  | jump hname hget hlast _ ih => exact .jump hname (hother hget) hlast (ih hplace)
  | _ => cases hplace

/-! ## Whole paths -/

variable {p : Path}

theorem resolve_of_start (h : fs.start p = .ok here) :
    fs.resolve through p = fs.follow through linkLimit here p.pieces := by
  unfold resolve
  rw [h]
  rfl

theorem resolve_of_start_error {kind : IoKind} (h : fs.start p = .error kind) :
    fs.resolve through p = .error kind := by
  unfold resolve
  rw [h]
  rfl

theorem resolve_eq_ok_iff {place : Place} :
    fs.resolve through p = .ok place ↔
      ∃ here, fs.start p = .ok here ∧ fs.follow through linkLimit here p.pieces = .ok place := by
  unfold resolve
  cases fs.start p with
  | error kind => exact ⟨nofun, nofun⟩
  | ok here => exact ⟨fun h => ⟨here, rfl, h⟩, fun ⟨_, heq, h⟩ => Except.ok.inj heq ▸ h⟩

theorem resolve_true {place : Except IoKind Place} (h : fs.resolve false p = place)
    (hlink : ∀ k target, place ≠ .ok (.found k (.link target))) : fs.resolve true p = place := by
  subst h
  cases hstart : fs.start p with
  | error kind => rw [resolve_of_start_error hstart, resolve_of_start_error hstart]
  | ok here =>
    rw [resolve_of_start hstart] at hlink ⊢
    rw [resolve_of_start hstart]
    exact follow_true rfl hlink

theorem start_of_workingDirectory (h : fs'.workingDirectory = fs.workingDirectory) (p : Path) :
    fs'.start p = fs.start p := by
  simp only [start, h]

theorem target_eq_ok_iff : fs.target p = .ok (l, e) ↔ fs.resolve true p = .ok (.found l e) := by
  unfold target
  cases fs.resolve true p with
  | error kind => exact ⟨nofun, nofun⟩
  | ok place =>
    cases place with
    | found k e' =>
      constructor
      · rintro ⟨⟩
        rfl
      · rintro ⟨⟩
        rfl
    | missing k rest => exact ⟨nofun, nofun⟩

theorem get?_of_target (h : fs.target p = .ok (l, e)) (he : e ≠ .directory) :
    fs.get? l = some e := by
  obtain ⟨here, -, hfollow⟩ := resolve_eq_ok_iff.mp (target_eq_ok_iff.mp h)
  exact get?_of_found hfollow he

theorem isDirectory_iff : fs.isDirectory p = true ↔ ∃ l, fs.resolve true p = .ok (.found l .directory) := by
  simp only [← target_eq_ok_iff]
  unfold isDirectory
  split
  · rename_i k hk
    exact ⟨fun _ => ⟨k, hk⟩, fun _ => rfl⟩
  · rename_i hno
    exact ⟨nofun, fun ⟨k, hk⟩ => (hno k hk).elim⟩

/-! ## Renaming -/

variable {source target : Path} {k dir : Location} {name : Text}

/-- Why a file cannot be given a name, whatever stands there. -/
def refusal? (target : Path) (name : Text) : Option IoKind :=
  if name == ['.'] || name == ['.', '.'] then some .busy
  else if nameLimit < nameSize name then some .nameTooLong
  else if target.text.getLast? == some '/' then some .notADirectory
  else none

theorem refusal?_eq_none_iff : refusal? target name = none ↔
    (name ≠ ['.'] ∧ name ≠ ['.', '.']) ∧ ¬nameLimit < nameSize name ∧
      target.text.getLast? ≠ some '/' := by
  unfold refusal?
  split
  · rename_i hdots
    exact ⟨nofun, fun h => by simp [h.1] at hdots⟩
  rename_i hdots
  split
  · rename_i hsize
    exact ⟨nofun, fun h => absurd hsize h.2.1⟩
  rename_i hsize
  split
  · rename_i hslash
    exact ⟨nofun, fun h => absurd (beq_iff_eq.mp hslash) h.2.2⟩
  rename_i hslash
  exact ⟨fun _ => ⟨by simpa using hdots, hsize, by simpa using hslash⟩, fun _ => rfl⟩

/-- An entry under a name in a directory, in place of any file or link of that name. -/
def giveName (fs : FileSystem) (target : Path) (k : Location) (e : Entry) :
    Location × Text → Except IoKind FileSystem := fun (dir, name) =>
  match refusal? target name, fs.get? (dir ++ [name]) with
  | some kind, _ => .error kind
  | none, some .directory => .error .isADirectory
  | none, _ => .ok ((fs.erase k).put (dir ++ [name]) e)

/-- Renaming finds the entry and the place for it, and then puts the one in the other. -/
theorem rename_eq (fs : FileSystem) (source target : Path) :
    fs.rename source target = fs.resolve false source >>= fun
      | .missing _ _ => .error .notFound
      | .found k e => fs.lastStep target >>= fs.giveName target k e := by
  unfold rename
  refine congrArg (fs.resolve false source >>= ·) (funext fun place => ?_)
  cases place with
  | missing l rest => rfl
  | found k e =>
    refine congrArg (fs.lastStep target >>= ·) (funext fun (dir, name) => ?_)
    unfold giveName refusal?
    dsimp only
    -- the name is checked before anything is looked up under it
    by_cases hdots : (name == ['.'] || name == ['.', '.']) = true
    · rw [if_pos hdots, if_pos hdots]
      rfl
    rw [if_neg hdots, if_neg hdots]
    by_cases hsize : nameLimit < nameSize name
    · rw [if_pos hsize, if_pos hsize]
      rfl
    rw [if_neg hsize, if_neg hsize]
    by_cases hslash : (target.text.getLast? == some '/') = true
    · rw [if_pos hslash, if_pos hslash]
      rfl
    rw [if_neg hslash, if_neg hslash]
    cases fs.get? (dir ++ [name]) with
    | none => rfl
    | some e => cases e <;> rfl

theorem giveName_eq_ok_iff : fs.giveName target k e (dir, name) = .ok fs' ↔
    refusal? target name = none ∧ fs.get? (dir ++ [name]) ≠ some .directory ∧
      fs' = (fs.erase k).put (dir ++ [name]) e := by
  unfold giveName
  dsimp only
  split
  · rename_i hrefused
    simp [hrefused]
  · rename_i hdir
    simp [hdir]
  · rename_i hrefused hdir
    simp only [Except.ok.injEq, hrefused, true_and, eq_comm (a := fs')]
    exact (and_iff_right hdir).symm

end FileSystem

end ExtensionAudit
