import ExtensionAudit.Proofs.Files.Joining
import ExtensionAudit.Proofs.Files.Trees
/-
  The last name of a path. Up to it a path leads over directories and links, so it is
  looked up in the same directory as long as those stay, whatever becomes of files; and
  where no link has that name, the path leads to what stands there, whether the last
  link is followed or not. A temporary file has a name of its own in this sense: no
  path that is replaced ends with it.

  Main statements: `lastStep_of_passages`, `lastStep_of_resolve_name`,
  `resolve_of_lastStep` and `AtomicWrite.ne_temporaryName`.
-/

namespace ExtensionAudit

/-- Whether a path can lead on through an entry. -/
def Entry.isPassage : Entry → Bool
  | .file _ _ => false
  | .directory => true
  | .link _ => true

namespace FileSystem

variable {fs fs' : FileSystem} {through : Bool} {links : Nat} {here l d : Location}
  {name : Text} {front pieces : List Text} {e : Entry} {p : Path} {place : Place}

/-! ## As far as the last name -/

/-- A path that leads to a directory still does when no directory and no link went. -/
theorem follow_of_passages
    (hfs : ∀ l e, e.isPassage = true → fs.get? l = some e → fs'.get? l = some e)
    (h : fs.follow true links here pieces = .ok (.found l .directory)) :
    fs'.follow true links here pieces = .ok (.found l .directory) := by
  rw [follow_eq_ok_iff] at h ⊢
  induction h using Reaches.directory_induction with
  | done links => exact .done links l
  | idle hc _ ih => exact .idle hc ih
  | parent hc _ ih => exact .parent hc ih
  | directory hname hget _ ih => exact .directory hname (hfs _ _ rfl hget) ih
  | jump hname hget hlast _ ih => exact .jump hname (hfs _ _ rfl hget) hlast ih

/-! ## The last step of a path -/

theorem lastStep_eq_ok_iff : fs.lastStep p = .ok (d, name) ↔
    ∃ here, fs.start p = .ok here ∧
      ((p.pieces.reverse.dropWhile (·.isEmpty) = [] ∧ d = [] ∧ name = ['.']) ∨
        ∃ front, p.pieces.reverse.dropWhile (·.isEmpty) = name :: front.reverse ∧
          fs.follow true linkLimit here front = .ok (.found d .directory)) := by
  unfold lastStep
  rw [bind_eq_ok]
  refine exists_congr fun here => and_congr_right fun _ => ?_
  cases p.pieces.reverse.dropWhile (·.isEmpty) with
  | nil =>
    constructor
    · rintro ⟨⟩
      exact .inl ⟨rfl, rfl, rfl⟩
    · rintro (⟨-, rfl, rfl⟩ | ⟨_, hnil, -⟩)
      · rfl
      · cases hnil
  | cons piece above =>
    dsimp only
    rw [bind_eq_ok]
    constructor
    · rintro ⟨place, hfollow, h⟩
      split at h
      · cases h
        exact .inr ⟨above.reverse, by rw [List.reverse_reverse], hfollow⟩
      · cases h
      · cases h
    · rintro (⟨hnil, -⟩ | ⟨front, hfront, hfollow⟩)
      · cases hnil
      · obtain ⟨rfl, rfl⟩ := List.cons.inj hfront
        rw [List.reverse_reverse]
        exact ⟨_, hfollow, rfl⟩

/-- The last name is looked up in the same directory when no directory and no link went. -/
theorem lastStep_of_passages (hwd : fs'.workingDirectory = fs.workingDirectory)
    (hfs : ∀ l e, e.isPassage = true → fs.get? l = some e → fs'.get? l = some e)
    (h : fs.lastStep p = .ok (d, name)) : fs'.lastStep p = .ok (d, name) := by
  rw [lastStep_eq_ok_iff] at h ⊢
  obtain ⟨here, hstart, h⟩ := h
  refine ⟨here, (start_of_workingDirectory hwd p).trans hstart, ?_⟩
  rcases h with hroot | ⟨front, hfront, hfollow⟩
  · exact .inl hroot
  · exact .inr ⟨front, hfront, follow_of_passages hfs hfollow⟩

theorem lastStep_of_pieces (hpieces : p.pieces = front ++ [name]) (hne : name ≠ []) :
    fs.lastStep p = .ok (d, name) ↔ ∃ here, fs.start p = .ok here ∧
      fs.follow true linkLimit here front = .ok (.found d .directory) := by
  have hlast : p.pieces.reverse.dropWhile (·.isEmpty) = name :: front.reverse := by
    simp [hpieces, hne]
  rw [lastStep_eq_ok_iff, hlast]
  refine exists_congr fun here => and_congr_right fun _ => ?_
  constructor
  · rintro (⟨hnil, -⟩ | ⟨above, habove, hfollow⟩)
    · cases hnil
    · obtain ⟨-, heq⟩ := List.cons.inj habove
      rwa [← List.reverse_inj.mp heq] at hfollow
  · exact fun hfollow => .inr ⟨front, rfl, hfollow⟩

/-- Where no link has the name at the end of a path, the path leads to what stands under it. -/
theorem lastStep_of_resolve_name (hpieces : p.pieces = front ++ [name])
    (hnormal : Path.componentOf? name = some (.normal name))
    (hlinks : ∀ d target, fs.get? (d ++ [name]) ≠ some (.link target))
    (h : fs.resolve through p = .ok place) :
    ∃ d, fs.lastStep p = .ok (d, name) ∧ IsName name ∧
      ((fs.get? (d ++ [name]) = none ∧ place = .missing (d ++ [name]) []) ∨
        ∃ e, fs.get? (d ++ [name]) = some e ∧ place = .found (d ++ [name]) e) := by
  have hne : name ≠ [] := by
    rintro rfl
    cases hnormal
  obtain ⟨here, hstart, hfollow⟩ := resolve_eq_ok_iff.mp h
  rw [hpieces] at hfollow
  obtain ⟨d, hfront, left, hlast⟩ :=
    (Reaches.of_follow hfollow).of_append (by simp) fun _ _ _ => by simp [hne]
  refine ⟨d, (lastStep_of_pieces hpieces hne).mpr ⟨here, hstart, hfront.follow⟩, ?_⟩
  cases hlast with
  | idle hc _ => cases hnormal.symm.trans hc
  | parent hc _ => cases hnormal.symm.trans hc
  | missing hname hget _ => exact ⟨hname, .inl ⟨hget, rfl⟩⟩
  | directory hname hget hrest =>
    cases hrest
    exact ⟨hname, .inr ⟨_, hget, rfl⟩⟩
  | file hname hget => exact ⟨hname, .inr ⟨_, hget, rfl⟩⟩
  | link _ hget _ => exact absurd hget (hlinks _ _)
  | jump _ hget _ _ => exact absurd hget (hlinks _ _)

/-- A path leads to a file under its last name. -/
theorem resolve_of_lastStep {content : ByteArray} {executable : Bool}
    (hpieces : p.pieces = front ++ [name]) (hname : IsName name)
    (hlast : fs.lastStep p = .ok (d, name))
    (hget : fs.get? (d ++ [name]) = some (.file content executable)) :
    fs.resolve through p = .ok (.found (d ++ [name]) (.file content executable)) := by
  obtain ⟨here, hstart, hfollow⟩ := (lastStep_of_pieces hpieces hname.ne_nil).mp hlast
  rw [resolve_of_start hstart, hpieces]
  exact ((Reaches.of_follow hfollow).append rfl fun _ => .file hname hget).follow

theorem fileName?_of_lastStep (h : fs.lastStep p = .ok (d, name)) :
    name = ['.'] ∨ name = ['.', '.'] ∨ p.fileName? = some name := by
  obtain ⟨here, -, ⟨-, -, rfl⟩ | ⟨front, hfront, -⟩⟩ := lastStep_eq_ok_iff.mp h
  · exact .inl rfl
  obtain ⟨hne, -, hsteps⟩ := Path.exists_pieces_of_dropWhile hfront
  rcases Path.componentOf?_of_ne_nil hne with hdot | hdots | hname
  · exact .inl hdot
  · exact .inr (.inl hdots)
  · rw [List.filterMap_cons, hname, List.filterMap_nil, Path.steps] at hsteps
    refine .inr (.inr ?_)
    rw [Path.fileName?, Path.components, hsteps, ← List.append_assoc, List.getLast?_concat]

theorem isName_of_lastStep (h : fs.lastStep p = .ok (d, name))
    (hdots : name ≠ ['.'] ∧ name ≠ ['.', '.']) (hsize : ¬nameLimit < nameSize name) :
    IsName name := by
  obtain ⟨here, -, ⟨-, -, rfl⟩ | ⟨front, hfront, -⟩⟩ := lastStep_eq_ok_iff.mp h
  · exact absurd rfl hdots.1
  obtain ⟨hne, -, -⟩ := Path.exists_pieces_of_dropWhile hfront
  rcases Path.componentOf?_of_ne_nil hne with hdot | hdot | hname
  · exact absurd hdot hdots.1
  · exact absurd hdot hdots.2
  · exact ⟨hname, hsize⟩

end FileSystem

/-! ## The name of a temporary file -/

namespace Path

theorem slash_not_mem_of_fileName? {p : Path} {name : Text} (h : p.fileName? = some name) :
    '/' ∉ name := by
  have hmem : Component.normal name ∈ p.components := by
    unfold fileName? at h
    split at h
    · rename_i hlast
      cases h
      exact List.mem_of_getLast? hlast
    · cases h
  rcases List.mem_append.mp hmem with hstart | hstep
  · unfold start at hstart
    split at hstart
    · cases List.mem_singleton.mp hstart
    · split at hstart
      · cases List.mem_singleton.mp hstart
      · cases hstart
  · obtain ⟨piece, hpiece, hname⟩ := List.mem_filterMap.mp hstep
    have hnormal := FileSystem.eq_normal_of_componentOf? (by simp) hname
    rw [Component.normal.inj hnormal]
    exact slash_not_mem_of_mem_pieces hpiece

theorem exists_pieces_join_name (p : Path) {name : Text} (hslash : '/' ∉ name) :
    ∃ front, (p.join ⟨name⟩).pieces = front ++ [name] := by
  have hrelative := isAbsolute_of_slash_not_mem hslash
  by_cases hp : p.text = []
  · refine ⟨[], ?_⟩
    have hjoin : p.join ⟨name⟩ = ⟨name⟩ := by simp [join, hrelative, hp]
    rw [hjoin, pieces_of_name hslash]
    rfl
  · obtain ⟨front, hpieces, -⟩ := exists_pieces_join hp hrelative
    exact ⟨front, by rw [hpieces, pieces_of_name hslash]⟩

end Path

namespace AtomicWrite

open ExtensionAudit.FileSystem ExtensionAudit.Path

variable (w : AtomicWrite)

theorem length_temporaryName :
    (w.path.fileName?.getD []).length + 6 ≤ w.temporaryName.length := by
  simp [temporaryName]

theorem slash_not_mem_temporaryName : '/' ∉ w.temporaryName := by
  have hname : '/' ∉ w.path.fileName?.getD [] := by
    cases hname : w.path.fileName? with
    | none => simp
    | some name => exact slash_not_mem_of_fileName? hname
  have hdigits : '/' ∉ Nat.toDigits 10 w.process := by
    intro hmem
    have hdigit := Nat.isDigit_of_mem_toDigits (by omega) (by omega) hmem
    simp [Char.isDigit] at hdigit
  simp [temporaryName, hname, hdigits]

theorem componentOf?_temporaryName :
    componentOf? w.temporaryName = some (.normal w.temporaryName) := by
  have hlength := w.length_temporaryName
  have hne : w.temporaryName ≠ [] ∧ w.temporaryName ≠ ['.'] ∧ w.temporaryName ≠ ['.', '.'] := by
    refine ⟨?_, ?_, ?_⟩ <;> intro heq <;> rw [heq] at hlength <;> simp at hlength
  simp [componentOf?, hne.1, hne.2.1, hne.2.2]

theorem exists_pieces_temporary : ∃ front, w.temporary.pieces = front ++ [w.temporaryName] := by
  unfold temporary withFileName
  split
  · exact exists_pieces_join_name _ w.slash_not_mem_temporaryName
  · exact exists_pieces_join_name _ w.slash_not_mem_temporaryName

/-- No path ends with the name of its temporary file. -/
theorem ne_temporaryName {w : AtomicWrite} {fs : FileSystem} {d : Location} {name : Text}
    (h : fs.lastStep w.path = .ok (d, name)) : name ≠ w.temporaryName := by
  have hlength := w.length_temporaryName
  rintro rfl
  rcases fileName?_of_lastStep h with hdot | hdots | hname
  · rw [hdot] at hlength
    simp at hlength
  · rw [hdots] at hlength
    simp at hlength
  · rw [hname, Option.getD_some] at hlength
    omega

end AtomicWrite

end ExtensionAudit
