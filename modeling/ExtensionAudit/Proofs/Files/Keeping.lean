import ExtensionAudit.Proofs.Files.LastNames
/-
  What the operations on files keep. Making directories changes nothing where
  something stood; putting or removing a file changes its location, which no path
  leads on through. So paths lead on where they did, and the directory in which a
  last name is looked up stays the same.

  Main statements: `makeDirectoriesWithin_extends`, `Keeps.put_file`, `Keeps.erase`,
  and `openEmpty_eq_ok` and `rename_eq_ok`, what an operation that succeeds has done.
-/

namespace ExtensionAudit

namespace FileSystem

variable {fs fs' fs'' : FileSystem} {l d : Location} {name : Text} {p : Path} {e : Entry}
  {content : ByteArray} {executable : Bool}

/-! ## What stays -/

/-- At a location stands what stood there, or a directory was made where nothing stood. -/
def Untouched (fs fs' : FileSystem) (l : Location) : Prop :=
  fs'.get? l = fs.get? l ∨ (fs.get? l = none ∧ fs'.get? l = some .directory)

theorem Untouched.refl (fs : FileSystem) (l : Location) : Untouched fs fs l := .inl rfl

theorem Untouched.trans (h : Untouched fs fs' l) (h' : Untouched fs' fs'' l) :
    Untouched fs fs'' l := by
  rcases h' with heq' | ⟨hnone', hdir'⟩
  · rcases h with heq | ⟨hnone, hdir⟩
    · exact .inl (heq'.trans heq)
    · exact .inr ⟨hnone, heq'.trans hdir⟩
  · rcases h with heq | ⟨hnone, hdir⟩
    · exact .inr ⟨heq.symm.trans hnone', hdir'⟩
    · cases hnone'.symm.trans hdir

/-- Directories were made, and nothing else was changed. -/
structure Extends (fs fs' : FileSystem) : Prop where
  workingDirectory : fs'.workingDirectory = fs.workingDirectory
  untouched : ∀ l, Untouched fs fs' l

theorem Extends.refl (fs : FileSystem) : Extends fs fs := ⟨rfl, .refl fs⟩

theorem Extends.trans (h : Extends fs fs') (h' : Extends fs' fs'') : Extends fs fs'' :=
  ⟨h'.workingDirectory.trans h.workingDirectory,
    fun l => (h.untouched l).trans (h'.untouched l)⟩

/-- Directories were made, and files with a name were changed; paths lead on where they did, and
there are no new links. -/
structure Keeps (name : Text) (fs fs' : FileSystem) : Prop where
  workingDirectory : fs'.workingDirectory = fs.workingDirectory
  untouched : ∀ l, l.getLast? ≠ some name → Untouched fs fs' l
  passages : ∀ l e, e.isPassage = true → fs.get? l = some e → fs'.get? l = some e
  links : ∀ l target, fs'.get? l = some (.link target) → fs.get? l = some (.link target)

theorem Keeps.refl (name : Text) (fs : FileSystem) : Keeps name fs fs :=
  ⟨rfl, fun l _ => .refl fs l, fun _ _ _ h => h, fun _ _ h => h⟩

theorem Keeps.trans (h : Keeps name fs fs') (h' : Keeps name fs' fs'') : Keeps name fs fs'' where
  workingDirectory := h'.workingDirectory.trans h.workingDirectory
  untouched l hl := (h.untouched l hl).trans (h'.untouched l hl)
  passages l e he hget := h'.passages l e he (h.passages l e he hget)
  links l target hget := h.links l target (h'.links l target hget)

theorem Extends.keeps (h : Extends fs fs') (name : Text) : Keeps name fs fs' where
  workingDirectory := h.workingDirectory
  untouched l _ := h.untouched l
  passages l e _ hget := by
    rcases h.untouched l with heq | ⟨hnone, -⟩
    · rw [heq, hget]
    · cases hnone.symm.trans hget
  links l target hget := by
    rcases h.untouched l with heq | ⟨-, hdir⟩
    · rw [← heq, hget]
    · cases hdir.symm.trans hget

theorem Keeps.lastStep (h : Keeps name fs fs') {r : Location × Text}
    (hlast : fs.lastStep p = .ok r) : fs'.lastStep p = .ok r :=
  lastStep_of_passages h.workingDirectory h.passages hlast

/-! ## What the operations keep -/

theorem makeDirectory_extends (h : fs.makeDirectory p = .ok fs') : Extends fs fs' := by
  obtain ⟨place, hresolve, h⟩ := bind_eq_ok.mp h
  cases place with
  | found l e => cases h
  | missing l rest =>
    cases h
    obtain ⟨here, -, hfollow⟩ := resolve_eq_ok_iff.mp hresolve
    have hnone := get?_of_missing hfollow
    have hl : l ≠ [] := by
      rintro rfl
      cases hnone
    refine ⟨rfl, fun k => ?_⟩
    by_cases hk : k = l
    · exact .inr ⟨hk ▸ hnone, by rw [get?_put hl, if_pos hk]⟩
    · exact .inl (by rw [get?_put hl, if_neg hk])

theorem ensureDirectory_extends (fs : FileSystem) (p : Path) :
    Extends fs (fs.ensureDirectory p).1 := by
  unfold ensureDirectory
  split
  · rename_i hmake
    exact makeDirectory_extends hmake
  · exact .refl fs

theorem makeDirectoriesWithin_extends (fs : FileSystem) (p : Path) (depth : Nat) :
    Extends fs (fs.makeDirectoriesWithin p depth).1 := by
  induction depth generalizing p with
  | zero =>
    unfold makeDirectoriesWithin
    split
    · exact .refl fs
    · exact ensureDirectory_extends fs p
  | succ depth ih =>
    unfold makeDirectoriesWithin
    split
    · rename_i parent _ _
      have habove := ih parent
      split
      · rename_i made hmade
        rw [hmade] at habove
        exact habove.trans (ensureDirectory_extends made p)
      · exact habove
    · exact ensureDirectory_extends fs p

theorem Keeps.of_get? (hl : l.getLast? = some name)
    (hget : ∀ e, fs.get? l = some e → e.isPassage = false)
    (hwd : fs'.workingDirectory = fs.workingDirectory)
    (hothers : ∀ k, k ≠ l → fs'.get? k = fs.get? k)
    (hlink : ∀ target, fs'.get? l ≠ some (.link target)) : Keeps name fs fs' := by
  constructor
  · exact hwd
  · intro k hk
    exact .inl (hothers k fun heq => hk (heq ▸ hl))
  · intro k e he hk
    have hkl : k ≠ l := by
      rintro rfl
      exact Bool.false_ne_true ((hget e hk).symm.trans he)
    rw [hothers k hkl, hk]
  · intro k target hk
    have hkl : k ≠ l := by
      rintro rfl
      exact hlink target hk
    rw [← hothers k hkl, hk]

theorem Keeps.put_file (hl : l.getLast? = some name)
    (hget : ∀ e, fs.get? l = some e → e.isPassage = false) :
    Keeps name fs (fs.put l (.file content executable)) := by
  have hroot := List.ne_nil_of_mem (List.mem_of_getLast? hl)
  refine .of_get? hl hget rfl (fun k hk => ?_) fun target => ?_
  · rw [get?_put hroot, if_neg hk]
  · simp [get?_put hroot]

theorem Keeps.erase (hl : l.getLast? = some name)
    (hget : ∀ e, fs.get? l = some e → e.isPassage = false) : Keeps name fs (fs.erase l) := by
  have hroot := List.ne_nil_of_mem (List.mem_of_getLast? hl)
  refine .of_get? hl hget rfl (fun k hk => ?_) fun target => ?_
  · rw [get?_erase hroot, if_neg hk]
  · simp [get?_erase hroot]

/-- Opening empties the file that a path leads to, or makes one where it leads to nothing. -/
theorem openEmpty_eq_ok (h : fs.openEmpty p = .ok (fs', l)) :
    ∃ executable, fs' = fs.put l (.file .empty executable) ∧
      ((∃ content, fs.resolve true p = .ok (.found l (.file content executable))) ∨
        fs.resolve true p = .ok (.missing l [])) := by
  obtain ⟨place, hresolve, h⟩ := bind_eq_ok.mp h
  cases place with
  | found k e =>
    cases e with
    | directory => cases h
    | link target => cases h
    | file content executable =>
      cases h
      exact ⟨executable, rfl, .inl ⟨content, hresolve⟩⟩
  | missing k rest =>
    dsimp only at h
    split at h
    · rename_i hrest
      obtain rfl := List.isEmpty_iff.mp hrest
      cases h
      exact ⟨false, rfl, .inr hresolve⟩
    · cases h

/-- Renaming puts what the first path leads to under the last name of the second one. -/
theorem rename_eq_ok {source target : Path} (h : fs.rename source target = .ok fs') :
    ∃ k e dir name, fs.resolve false source = .ok (.found k e) ∧
      fs.lastStep target = .ok (dir, name) ∧ fs.get? (dir ++ [name]) ≠ some .directory ∧
      fs' = (fs.erase k).put (dir ++ [name]) e := by
  rw [rename_eq] at h
  obtain ⟨place, hresolve, h⟩ := bind_eq_ok.mp h
  cases place with
  | missing k rest => cases h
  | found k e =>
    obtain ⟨⟨dir, name⟩, hlast, h⟩ := bind_eq_ok.mp h
    obtain ⟨-, hdir, rfl⟩ := giveName_eq_ok_iff.mp h
    exact ⟨k, e, dir, name, hresolve, hlast, hdir, rfl⟩

end FileSystem

end ExtensionAudit
