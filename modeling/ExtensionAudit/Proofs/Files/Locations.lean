import ExtensionAudit.Proofs.Files.Joining
/-
  The path of a location is absolute, and its steps go down along the names of the
  location. Joining a relative path to it appends names, and a path lies below
  another one exactly when its location does.

  Main statements: `join_pathOf`, `isBelow_pathOf` and `relativeTo_pathOf`.
-/

namespace ExtensionAudit.FileSystem

/-- A name that an entry of a directory can have. -/
structure IsEntryName (name : Text) : Prop extends IsName name where
  slash : '/' ∉ name
  zero : '\x00' ∉ name

instance (name : Text) : Decidable (IsEntryName name) :=
  decidable_of_iff (Path.componentOf? name = some (.normal name) ∧
      ¬nameLimit < nameSize name ∧ '/' ∉ name ∧ '\x00' ∉ name)
    ⟨fun ⟨hc, hsize, hslash, hzero⟩ => ⟨⟨hc, hsize⟩, hslash, hzero⟩,
      fun h => ⟨h.component, h.size, h.slash, h.zero⟩⟩

theorem IsName.ne_nil {name : Text} (h : IsName name) : name ≠ [] := by
  rintro rfl
  cases h.component

variable {l k : Location} {name : Text}

theorem IsEntryName.concat (h : IsEntryName name) (hl : ∀ n ∈ l, IsEntryName n) :
    ∀ n ∈ l ++ [name], IsEntryName n :=
  List.forall_mem_append.mpr ⟨hl, List.forall_mem_singleton.mpr h⟩

/-! ## The text -/

theorem isAbsolute_pathOf (l : Location) : (pathOf l).isAbsolute = true := by
  cases l with
  | nil => rfl
  | cons name l => exact Path.isAbsolute_iff.mpr ⟨_, rfl⟩

theorem text_pathOf_ne_nil (l : Location) : (pathOf l).text ≠ [] := by
  obtain ⟨rest, hrest⟩ := Path.isAbsolute_iff.mp (isAbsolute_pathOf l)
  simp [hrest]

theorem splitAt_flatMap {t : Text} (ht : '/' ∉ t) (hl : ∀ name ∈ l, '/' ∉ name) :
    Text.splitAt (· == '/') (t ++ l.flatMap ('/' :: ·)) = t :: l := by
  induction l generalizing t with
  | nil => rw [List.flatMap_nil, List.append_nil, Path.splitAt_of_slash_not_mem ht]
  | cons name l ih =>
    obtain ⟨hname, hl⟩ := List.forall_mem_cons.mp hl
    rw [List.flatMap_cons, List.cons_append, Text.splitAt_append_cons (by simp),
      Path.splitAt_of_slash_not_mem ht, ih hname hl]
    rfl

/-- The pieces of a path with a slash in front of each are its text with a slash in front. -/
theorem flatMap_pieces (q : Path) : q.pieces.flatMap ('/' :: ·) = '/' :: q.text := by
  obtain ⟨first, rest, hpieces⟩ := List.exists_cons_of_ne_nil q.pieces_ne_nil
  rw [← Path.unpieces_pieces q, hpieces, Path.unpieces_cons, List.flatMap_cons, List.flatMap_def]
  rfl

theorem filterMap_componentOf? (hl : ∀ name ∈ l, IsName name) :
    l.filterMap Path.componentOf? = l.map .normal := by
  induction l with
  | nil => rfl
  | cons name l ih =>
    obtain ⟨hname, hl⟩ := List.forall_mem_cons.mp hl
    rw [List.filterMap_cons, hname.component, ih hl]
    rfl

theorem steps_pathOf (hl : ∀ name ∈ l, IsEntryName name) :
    (pathOf l).steps = l.map .normal := by
  cases l with
  | nil => rfl
  | cons name l =>
    have hpieces : (pathOf (name :: l)).pieces = [] :: name :: l :=
      splitAt_flatMap (t := []) (by simp) fun n hn => (hl n hn).slash
    rw [Path.steps, hpieces]
    show (name :: l).filterMap Path.componentOf? = _
    exact filterMap_componentOf? fun n hn => (hl n hn).toIsName

theorem components_pathOf (hl : ∀ name ∈ l, IsEntryName name) :
    (pathOf l).components = .root :: l.map .normal := by
  rw [Path.components_of_isAbsolute (isAbsolute_pathOf l), steps_pathOf hl]

/-! ## Going further down -/

/-- A relative path leads on from the path of a location. -/
theorem join_pathOf {q : Path} (hl : ∀ name ∈ l, IsEntryName name)
    (hq : q.isAbsolute = false) : (pathOf l).join q = pathOf (l ++ q.pieces) := by
  have hjoined : (pathOf (l ++ q.pieces)).text = l.flatMap ('/' :: ·) ++ '/' :: q.text := by
    have hne : l ++ q.pieces ≠ [] := by simp [Path.pieces_ne_nil]
    rw [← flatMap_pieces, ← List.flatMap_append, pathOf, if_neg (by simpa using hne)]
  obtain ⟨front, htext, hfront⟩ := Path.exists_text_join (text_pathOf_ne_nil l) hq
  suffices hsame : front = l.flatMap ('/' :: ·) by
    rw [hsame, ← hjoined] at htext
    exact congrArg Path.mk htext
  rcases List.eq_nil_or_concat l with rfl | ⟨above, name, rfl⟩
  · -- the path of the root is a slash already
    rcases hfront with ⟨hfront, hslash⟩ | hfront
    · exact absurd (by rw [← hfront]; rfl) hslash
    · simpa [pathOf] using hfront
  · -- no name ends with a slash
    have hname := hl name (by simp)
    have hwhole : (pathOf (above.concat name)).text = above.flatMap ('/' :: ·) ++ '/' :: name := by
      simp [pathOf]
    rcases hfront with ⟨hfront, -⟩ | hfront
    · rw [← hfront]
      simp [pathOf]
    · exfalso
      obtain ⟨first, last, rfl⟩ := List.eq_nil_or_concat name |>.resolve_left hname.toIsName.ne_nil
      rw [hwhole, List.concat_eq_append, ← List.cons_append, ← List.append_assoc] at hfront
      obtain ⟨-, hlast⟩ := List.append_inj' hfront rfl
      obtain rfl := List.singleton_inj.mp hlast
      exact hname.slash (by simp)

theorem join_pathOf_name (hl : ∀ n ∈ l, IsEntryName n) (hname : '/' ∉ name) :
    (pathOf l).join ⟨name⟩ = pathOf (l ++ [name]) := by
  have hpieces : Path.pieces ⟨name⟩ = [name] := by
    have hsplit := splitAt_flatMap (l := []) hname (by simp)
    simpa [Path.pieces] using hsplit
  rw [join_pathOf hl (Path.isAbsolute_of_slash_not_mem hname), hpieces]

theorem isBelow_pathOf (hl : ∀ n ∈ l, IsEntryName n) (hk : ∀ n ∈ k, IsEntryName n) :
    (pathOf l).isBelow (pathOf k) = true ↔ k <+: l := by
  have hinjective : Function.Injective Path.Component.normal := fun a b h =>
    Path.Component.normal.inj h
  rw [Path.isBelow, components_pathOf hl, components_pathOf hk, List.isPrefixOf_iff_prefix,
    List.cons_prefix_cons, List.prefix_map_iff_of_injective hinjective]
  exact ⟨fun h => h.2, fun h => ⟨rfl, h⟩⟩

/-! ## Relative paths -/

theorem dropNamed_append (hl : ∀ n ∈ l, IsEntryName n) (hk : ∀ n ∈ k, IsEntryName n) :
    Path.dropNamed l.length ([] :: (l ++ k)) = k := by
  have hidle : Path.componentOf? [] = none := rfl
  suffices hnames : Path.dropNamed l.length (l ++ k) = k by
    cases l with
    | nil => simpa [Path.dropNamed, hidle] using hnames
    | cons name l => simpa [Path.dropNamed, hidle] using hnames
  induction l with
  | nil =>
    cases k with
    | nil => rfl
    | cons name k => simp [Path.dropNamed, (hk name List.mem_cons_self).component]
  | cons name l ih =>
    obtain ⟨hname, hl⟩ := List.forall_mem_cons.mp hl
    simpa [Path.dropNamed, hname.component] using ih hl

theorem dropIdleEnd_names (hk : ∀ n ∈ k, IsEntryName n) : Path.dropIdleEnd k = k := by
  rcases List.eq_nil_or_concat k with rfl | ⟨front, name, rfl⟩
  · rfl
  · have hname := (hk name (by simp)).component
    simp [Path.dropIdleEnd, hname]

/-- What lies below a location is shown by the names that lead down to it. -/
theorem relativeTo_pathOf (hl : ∀ n ∈ l, IsEntryName n) (hk : ∀ n ∈ k, IsEntryName n)
    (hne : k ≠ []) : Path.relativeTo (pathOf l) (pathOf (l ++ k)) =
      String.ofList (Text.replaceChar '\\' '/' (Path.unpieces k)) := by
  have hlk : ∀ n ∈ l ++ k, IsEntryName n := List.forall_mem_append.mpr ⟨hl, hk⟩
  have hpieces : (pathOf (l ++ k)).pieces = [] :: (l ++ k) := by
    obtain ⟨name, names, hnames⟩ := List.exists_cons_of_ne_nil (l := l ++ k) (by simp [hne])
    rw [hnames] at hlk ⊢
    exact splitAt_flatMap (t := []) (by simp) fun n hn => (hlk n hn).slash
  have hbelow : (pathOf l).components.isPrefixOf (pathOf (l ++ k)).components = true :=
    (isBelow_pathOf hlk hl).mpr (List.prefix_append l k)
  have hstart : (pathOf l).start = [.root] := by rw [Path.start, if_pos (isAbsolute_pathOf l)]
  have hstrip : Path.strip? (pathOf l) (pathOf (l ++ k)) = some ⟨Path.unpieces k⟩ := by
    rw [Path.strip?, if_pos hbelow, components_pathOf hl, hstart, hpieces]
    have hlength : (Path.Component.root :: l.map .normal).length - [Path.Component.root].length =
        l.length := by simp
    show some (⟨Path.unpieces (Path.dropIdleEnd (Path.dropNamed
      ((Path.Component.root :: l.map .normal).length - [Path.Component.root].length)
      ([] :: (l ++ k))))⟩ : Path) = _
    rw [hlength, dropNamed_append hl hk, dropIdleEnd_names hk]
  rw [Path.relativeTo, hstrip]
  rfl

end ExtensionAudit.FileSystem
