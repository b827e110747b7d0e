import ExtensionAudit.Proofs.Files.Listing
/-
  File systems without a directory. A path whose steps keep out of a directory
  leads to the same place with it and without it, so whatever is read or listed
  along such paths is the same.

  Main statements: `Prunes.resolve`, `Prunes.avoids_of_target`,
  `Prunes.filesBelow`, `Prunes.subdirectories` and `subdirectories_prune`.
-/

namespace ExtensionAudit

namespace FileSystem

/-- The file system without what stands at a location or below it. -/
def prune (D : Location) (fs : FileSystem) : FileSystem :=
  { fs with entries := fs.entries.filter fun p => !D.isPrefixOf p.1 }

variable {fs fs' old : FileSystem} {D here l k : Location} {through : Bool} {links : Nat}
  {pieces : List Text} {steps more : List Path.Component} {name : Text} {e : Entry} {p q : Path}

theorem keeps_iff : (!D.isPrefixOf l) = true ↔ ¬D <+: l := by
  rw [Bool.not_eq_true', ← List.isPrefixOf_iff_prefix, Bool.not_eq_true]

/-! ## The table -/

theorem find?_filter {f : Location → Bool} (t : List (Location × Entry)) :
    find? l (t.filter fun p => f p.1) = if f l then find? l t else none := by
  induction t with
  | nil => simp [find?]
  | cons p t ih =>
    obtain ⟨m, d⟩ := p
    rw [List.filter_cons]
    by_cases hm : m = l
    · subst hm
      cases hkeep : f m <;> simp [hkeep, find?, ih]
    · split
      · rw [find?, if_neg hm, find?, if_neg hm, ih]
      · rw [find?, if_neg hm, ih]

theorem get?_prune (h : ¬D <+: l) : (fs.prune D).get? l = fs.get? l := by
  unfold get? prune
  rw [find?_filter (f := fun k => !D.isPrefixOf k), if_pos (keeps_iff.mpr h)]

theorem get?_prune_below (hD : D ≠ []) (h : D <+: l) : (fs.prune D).get? l = none := by
  have hl : l ≠ [] := by
    rintro rfl
    exact hD (List.prefix_nil.mp h)
  have hkeep : (!D.isPrefixOf l) = false := by
    rw [Bool.not_eq_false', List.isPrefixOf_iff_prefix]
    exact h
  unfold get? prune
  rw [if_neg hl, find?_filter (f := fun k => !D.isPrefixOf k), hkeep, if_neg (by simp)]

theorem prune_without (t : List (Location × Entry)) :
    (without l t).filter (fun p => !D.isPrefixOf p.1) =
      without l (t.filter fun p => !D.isPrefixOf p.1) := by
  simp only [without, List.filter_filter, Bool.and_comm]

theorem prune_put (h : ¬D <+: l) : (fs.put l e).prune D = (fs.prune D).put l e := by
  simp only [prune, put, List.filter_cons, keeps_iff.mpr h, if_true, prune_without]

theorem prune_erase : (fs.erase l).prune D = (fs.prune D).erase l := by
  simp only [prune, erase, prune_without]

/-! ## Steps that keep out -/

/-- Whether steps from a location lead nowhere at `D` or below on their way. -/
def Avoids (D here : Location) (steps : List Path.Component) : Prop :=
  ∀ front, front <+: steps → ¬D <+: walk here front

theorem Avoids.origin (h : Avoids D here steps) : ¬D <+: here := h [] List.nil_prefix

theorem Avoids.end (h : Avoids D here steps) : ¬D <+: walk here steps := h steps List.prefix_rfl

theorem Avoids.front (h : Avoids D here steps) (hmore : more <+: steps) :
    Avoids D here more := fun front hfront => h front (hfront.trans hmore)

theorem Avoids.tail {c : Path.Component} (h : Avoids D here (c :: steps)) :
    Avoids D (stepFrom here c) steps := fun front hfront =>
  h (c :: front) (List.cons_prefix_cons.mpr ⟨rfl, hfront⟩)

theorem avoids_nil (h : ¬D <+: here) : Avoids D here [] := by
  intro front hfront
  obtain rfl := List.prefix_nil.mp hfront
  exact h

theorem Avoids.cons {c : Path.Component} (hhere : ¬D <+: here)
    (h : Avoids D (stepFrom here c) steps) : Avoids D here (c :: steps) := by
  intro front hfront
  cases front with
  | nil => exact hhere
  | cons d front =>
    obtain ⟨rfl, hrest⟩ := List.cons_prefix_cons.mp hfront
    exact h front hrest

theorem Avoids.append (h : Avoids D here steps) (h' : Avoids D (walk here steps) more) :
    Avoids D here (steps ++ more) := by
  induction steps generalizing here with
  | nil => exact h'
  | cons c steps ih => exact .cons h.origin (ih h.tail h')

/-- From a place that is not above `D`, names lead neither to `D` nor to a place above it. -/
theorem not_prefix_append {names : List Text} (habove : ¬l <+: D) (hbelow : ¬D <+: l) :
    ¬D <+: l ++ names ∧ ¬l ++ names <+: D := by
  constructor
  · intro h
    rcases List.prefix_or_prefix_of_prefix h (List.prefix_append l names) with h | h
    · exact hbelow h
    · exact habove h
  · exact fun h => habove ((List.prefix_append l names).trans h)

theorem not_prefix_sibling {other : Text} (hne : other ≠ name) : ¬l ++ [name] <+: l ++ [other] := by
  rw [List.prefix_append_right_inj, List.cons_prefix_cons]
  exact fun h => hne h.1.symm

theorem avoids_names {names : List Text} (h : ¬D <+: l ++ names) :
    Avoids D l (names.map .normal) := by
  intro front hfront
  obtain ⟨more, rfl, hmore⟩ : ∃ more, front = more.map .normal ∧ more <+: names := by
    obtain ⟨m, hm⟩ := hfront
    obtain ⟨as, bs, rfl, has, -⟩ := List.map_eq_append_iff.mp hm.symm
    exact ⟨as, has.symm, List.prefix_append as bs⟩
  rw [walk_names]
  exact fun hbelow => h (hbelow.trans ((List.prefix_append_right_inj l).mpr hmore))

end FileSystem

/-! ## Paths that keep out -/

namespace Path

open FileSystem

variable {D : Location} {p q : Path} {name : Text} {names : List Text}

/-- An absolute path whose steps keep out of `D`. -/
structure Avoids (D : Location) (p : Path) : Prop where
  absolute : p.isAbsolute = true
  steps : FileSystem.Avoids D [] p.steps

/-- A path that keeps out of `D` and ends at no place above it. -/
structure Outside (D : Location) (p : Path) : Prop extends Avoids D p where
  apart : ¬walk [] p.steps <+: D

/-- A path to a name in a directory that is neither in `D` nor above it. -/
structure Beside (D : Location) (p : Path) : Prop where
  absolute : p.isAbsolute = true
  steps : ∃ front name, p.steps = front ++ [.normal name] ∧ FileSystem.Avoids D [] front ∧
    ¬walk [] front <+: D

theorem avoids_pathOf {l : Location} (hl : ∀ n ∈ l, IsEntryName n) (hbelow : ¬D <+: l) :
    (pathOf l).Avoids D := by
  refine ⟨isAbsolute_pathOf l, ?_⟩
  rw [steps_pathOf hl]
  exact avoids_names hbelow

theorem outside_pathOf {l : Location} (hl : ∀ n ∈ l, IsEntryName n) (hbelow : ¬D <+: l)
    (habove : ¬l <+: D) : (pathOf l).Outside D := by
  refine ⟨avoids_pathOf hl hbelow, ?_⟩
  rw [steps_pathOf hl, walk_names]
  exact habove

theorem text_ne_nil (h : p.isAbsolute = true) : p.text ≠ [] := by
  obtain ⟨rest, hrest⟩ := isAbsolute_iff.mp h
  simp [hrest]

theorem Outside.join (h : p.Outside D) (hname : componentOf? name = some (.normal name))
    (hslash : '/' ∉ name) : (p.join ⟨name⟩).Beside D := by
  refine ⟨isAbsolute_join h.absolute _, p.steps, name, ?_, h.steps, h.apart⟩
  rw [steps_join (text_ne_nil h.absolute) (isAbsolute_of_slash_not_mem hslash),
    steps_of_name hslash hname]

theorem Beside.outside (h : p.Beside D) : p.Outside D := by
  obtain ⟨habsolute, front, name, hsteps, hfront, hapart⟩ := h
  have hone : [Component.normal name] = [name].map .normal := rfl
  refine ⟨⟨habsolute, ?_⟩, ?_⟩
  · rw [hsteps, hone]
    exact hfront.append (avoids_names (not_prefix_append hapart hfront.end).1)
  · rw [hsteps, hone, walk_append, walk_names]
    exact (not_prefix_append hapart hfront.end).2

theorem Beside.avoids (h : p.Beside D) : p.Avoids D := h.outside.toAvoids

theorem Avoids.parent? (h : p.Avoids D) (hp : p.parent? = some q) : q.Avoids D := by
  rcases List.eq_nil_or_concat p.steps with hnil | ⟨front, c, hsteps⟩
  · have hlast : p.components.getLast? = some .root := by
      rw [components_of_isAbsolute h.absolute, hnil]
      rfl
    rw [Path.parent?, hlast] at hp
    cases hp
  · rw [List.concat_eq_append] at hsteps
    -- a component that a piece stands for is a step
    have hmem : c ∈ p.steps := by simp [hsteps]
    obtain ⟨piece, -, hpiece⟩ := List.mem_filterMap.mp hmem
    have hc : c ≠ .current ∧ c ≠ .root := by
      by_cases hparent : c = .parent
      · simp [hparent]
      · rw [eq_normal_of_componentOf? hparent hpiece]
        simp
    obtain ⟨above, habove, -, habsolute, hfront⟩ := exists_parent? hsteps hc.1 hc.2
    rw [hp] at habove
    cases habove
    refine ⟨habsolute.trans h.absolute, ?_⟩
    rw [hfront]
    exact h.steps.front (hsteps ▸ List.prefix_append front [c])

theorem Beside.withFileName (h : p.Beside D) (hname : componentOf? name = some (.normal name))
    (hslash : '/' ∉ name) : (p.withFileName name).Beside D := by
  obtain ⟨habsolute, front, old, hsteps, hfront, hapart⟩ := h
  obtain ⟨habsolute', hsteps'⟩ := steps_withFileName habsolute hsteps hslash hname
  exact ⟨habsolute', front, name, hsteps', hfront, hapart⟩

theorem Outside.foldl_join (h : p.Outside D) (hne : names ≠ [])
    (hnames : ∀ n ∈ names, IsEntryName n) :
    (names.foldl (fun q name => q.join ⟨name⟩) p).Beside D := by
  induction names generalizing p with
  | nil => exact absurd rfl hne
  | cons n names ih =>
    obtain ⟨hn, hnames⟩ := List.forall_mem_cons.mp hnames
    have hjoin := h.join hn.component hn.slash
    cases names with
    | nil => exact hjoin
    | cons next rest => exact ih hjoin.outside (by simp) hnames

end Path

namespace FileSystem

variable {fs fs' old : FileSystem} {D here l k : Location} {through : Bool} {links : Nat}
  {pieces : List Text} {name : Text} {e : Entry} {p q : Path}

/-! ## Two file systems -/

/-- The second file system is the first one without `D`: it has no links, and its names can be
names. What is at `D` and below is as it was before. -/
structure Prunes (D : Location) (old fs fs' : FileSystem) : Prop where
  eq : fs' = fs.prune D
  links : fs'.NoLinks
  names : ∀ p ∈ fs'.entries, ∀ name ∈ p.1, IsEntryName name
  same : ∀ k, D <+: k → fs.get? k = old.get? k

/-- A path that lies outside of `D`, or leads to no directory, be `D` there or not. -/
def Apart (D : Location) (fs : FileSystem) (p : Path) : Prop :=
  p.Outside D ∨ fs.isDirectory p = false ∧ (fs.prune D).isDirectory p = false

theorem prunes_self (tree : fs.IsTree) (links : (fs.prune D).NoLinks) :
    Prunes D fs fs (fs.prune D) :=
  ⟨rfl, links, fun p hp => tree.names p (List.mem_filter.mp hp).1, fun _ _ => rfl⟩

theorem IsTree.not_prefix_workingDirectory (tree : (fs.prune D).IsTree) (hD : D ≠ []) :
    ¬D <+: fs.workingDirectory := by
  intro hbelow
  have hget : (fs.prune D).get? fs.workingDirectory = some .directory := tree.here
  rw [get?_prune_below hD hbelow] at hget
  cases hget

namespace Prunes

theorem get? (h : Prunes D old fs fs') (hl : ¬D <+: l) : fs'.get? l = fs.get? l := by
  rw [h.eq, get?_prune hl]

theorem follow (h : Prunes D old fs fs')
    (havoids : Avoids D here (pieces.filterMap Path.componentOf?)) :
    fs'.follow through links here pieces = fs.follow through links here pieces := by
  induction pieces generalizing here with
  | nil => rw [follow_nil, follow_nil]
  | cons piece rest ih =>
    cases hc : Path.componentOf? piece with
    | none =>
      rw [List.filterMap_cons, hc] at havoids
      rw [follow_idle hc, follow_idle hc, ih havoids]
    | some c =>
      rw [List.filterMap_cons, hc] at havoids
      by_cases hparent : c = .parent
      · subst hparent
        rw [follow_parent hc, follow_parent hc]
        exact ih havoids.tail
      obtain rfl := eq_normal_of_componentOf? hparent hc
      by_cases hsize : nameLimit < nameSize piece
      · rw [follow_tooLong hc hsize, follow_tooLong hc hsize]
      have hbelow : ¬D <+: here ++ [piece] := havoids.tail.origin
      rw [follow_name ⟨hc, hsize⟩, follow_name ⟨hc, hsize⟩, ← h.get? hbelow]
      cases hget : fs'.get? (here ++ [piece]) with
      | none => rfl
      | some e =>
        cases e with
        | directory => exact ih havoids.tail
        | file content executable => rfl
        | link target => exact absurd hget (h.links _ _)

theorem start (h : Prunes D old fs fs') (p : Path) : fs'.start p = fs.start p := by
  rw [h.eq]
  rfl

theorem resolve (h : Prunes D old fs fs') (hp : p.Avoids D) :
    fs'.resolve through p = fs.resolve through p := by
  cases hstart : fs.start p with
  | error kind =>
    rw [resolve_of_start_error hstart, resolve_of_start_error ((h.start p).trans hstart)]
  | ok here =>
    obtain ⟨-, -, -, hhere⟩ := start_eq_ok_iff.mp hstart
    rw [hp.absolute, if_pos rfl] at hhere
    subst hhere
    rw [resolve_of_start hstart, resolve_of_start ((h.start p).trans hstart)]
    exact h.follow hp.steps

theorem target (h : Prunes D old fs fs') (hp : p.Avoids D) : fs'.target p = fs.target p := by
  unfold FileSystem.target
  rw [h.resolve hp]

theorem isFile (h : Prunes D old fs fs') (hp : p.Avoids D) : fs'.isFile p = fs.isFile p := by
  unfold FileSystem.isFile
  rw [h.target hp]

theorem isDirectory (h : Prunes D old fs fs') (hp : p.Avoids D) :
    fs'.isDirectory p = fs.isDirectory p := by
  unfold FileSystem.isDirectory
  rw [h.target hp]

theorem readText (h : Prunes D old fs fs') (hp : p.Avoids D) : fs'.readText p = fs.readText p := by
  unfold FileSystem.readText readBytes
  rw [h.target hp]

theorem readOptional (h : Prunes D old fs fs') (hp : p.Avoids D) :
    fs'.readOptional p = fs.readOptional p := by
  unfold FileSystem.readOptional
  rw [h.readText hp]

end Prunes

/-! ## Where such paths lead -/

def Place.location : Place → Location
  | .found l _ => l
  | .missing l _ => l

theorem mem_text_of_mem_pieces {piece : Text} {c : Char} (hpiece : piece ∈ p.pieces)
    (hc : c ∈ piece) : c ∈ p.text := by
  have hslash : c ≠ '/' := by
    rintro rfl
    exact Path.slash_not_mem_of_mem_pieces hpiece hc
  have hmem : c ∈ p.pieces.flatMap ('/' :: ·) :=
    List.mem_flatMap.mpr ⟨piece, hpiece, List.mem_cons_of_mem _ hc⟩
  rw [flatMap_pieces] at hmem
  exact (List.mem_cons.mp hmem).resolve_left hslash

namespace Prunes

/-- Steps that keep out reach a place outside, whose names can be names and where no link is. -/
theorem reached_of_follow {place : Place} (h : Prunes D old fs fs')
    (havoids : Avoids D here (pieces.filterMap Path.componentOf?))
    (hhere : ∀ n ∈ here, IsEntryName n)
    (hpieces : ∀ piece ∈ pieces, '/' ∉ piece ∧ '\x00' ∉ piece)
    (hfollow : fs'.follow through links here pieces = .ok place) :
    ¬D <+: place.location ∧ ∀ n ∈ place.location, IsEntryName n := by
  have hconcat {here : Location} {piece : Text} {rest : List Text} (hname : IsName piece)
      (hhere : ∀ n ∈ here, IsEntryName n)
      (hpieces : ∀ part ∈ piece :: rest, '/' ∉ part ∧ '\x00' ∉ part) :
      ∀ n ∈ here ++ [piece], IsEntryName n := by
    obtain ⟨hslash, hzero⟩ := hpieces piece List.mem_cons_self
    exact IsEntryName.concat ⟨hname, hslash, hzero⟩ hhere
  have hreaches := Reaches.of_follow hfollow
  clear hfollow
  induction hreaches with
  | done => exact ⟨havoids.origin, hhere⟩
  | idle hc _ ih =>
    rw [List.filterMap_cons, hc] at havoids
    exact ih havoids hhere (List.forall_mem_cons.mp hpieces).2
  | parent hc _ ih =>
    rw [List.filterMap_cons, hc] at havoids
    exact ih havoids.tail (fun n hn => hhere n (List.dropLast_subset _ hn))
      (List.forall_mem_cons.mp hpieces).2
  | directory hname _ _ ih =>
    rw [List.filterMap_cons, hname.component] at havoids
    exact ih havoids.tail (hconcat hname hhere hpieces) (List.forall_mem_cons.mp hpieces).2
  | missing hname _ _ =>
    rw [List.filterMap_cons, hname.component] at havoids
    exact ⟨havoids.tail.origin, hconcat hname hhere hpieces⟩
  | file hname _ =>
    rw [List.filterMap_cons, hname.component] at havoids
    exact ⟨havoids.tail.origin, hconcat hname hhere hpieces⟩
  | link _ hget _ => exact absurd hget (h.links _ _)
  | jump _ hget _ _ _ => exact absurd hget (h.links _ _)

theorem not_link (h : Prunes D old fs fs') {target : Path} :
    fs'.follow through links here pieces ≠ .ok (.found l (.link target)) := by
  intro hfollow
  exact h.links _ _ (get?_of_found hfollow (by simp))

theorem start_absolute (hp : p.Avoids D) (hstart : fs.start p = .ok here) :
    here = [] ∧ ∀ piece ∈ p.pieces, '/' ∉ piece ∧ '\x00' ∉ piece := by
  obtain ⟨-, hzero, -, hhere⟩ := start_eq_ok_iff.mp hstart
  rw [hp.absolute, if_pos rfl] at hhere
  exact ⟨hhere, fun piece hpiece => ⟨Path.slash_not_mem_of_mem_pieces hpiece,
    fun hmem => hzero (mem_text_of_mem_pieces hpiece hmem)⟩⟩

theorem reached {place : Place} (h : Prunes D old fs fs') (hp : p.Avoids D)
    (hresolve : fs.resolve through p = .ok place) :
    ¬D <+: place.location ∧ (∀ n ∈ place.location, IsEntryName n) ∧
      ∀ l target, place ≠ .found l (.link target) := by
  rw [← h.resolve hp] at hresolve
  obtain ⟨here, hstart, hfollow⟩ := resolve_eq_ok_iff.mp hresolve
  obtain ⟨rfl, hpieces⟩ := start_absolute hp hstart
  obtain ⟨hbelow, hnames⟩ := h.reached_of_follow hp.steps (by simp) hpieces hfollow
  exact ⟨hbelow, hnames, fun l target heq => h.not_link (heq ▸ hfollow)⟩

theorem avoids_of_follow (h : Prunes D old fs fs') (hD : D ≠ []) (hhere : ¬D <+: here)
    (hfollow : fs'.follow through links here pieces = .ok (.found l e)) :
    Avoids D here (pieces.filterMap Path.componentOf?) := by
  have hthere {k : Location} {e : Entry} (hget : fs'.get? k = some e) : ¬D <+: k := by
    intro hbelow
    rw [h.eq, get?_prune_below hD hbelow] at hget
    cases hget
  have hreaches := Reaches.of_follow hfollow
  clear hfollow
  generalize hplace : Place.found l e = place at hreaches
  induction hreaches with
  | done => exact avoids_nil hhere
  | idle hc _ ih =>
    rw [List.filterMap_cons, hc]
    exact ih hhere hplace
  | parent hc _ ih =>
    rw [List.filterMap_cons, hc]
    exact .cons hhere (ih (fun hbelow => hhere (hbelow.trans (List.dropLast_prefix _))) hplace)
  | directory hname hget _ ih =>
    rw [List.filterMap_cons, hname.component]
    exact .cons hhere (ih (hthere hget) hplace)
  | file hname hget =>
    rw [List.filterMap_cons, hname.component]
    exact .cons hhere (avoids_nil (hthere hget))
  | missing => cases hplace
  | link _ hget _ => exact absurd hget (h.links _ _)
  | jump _ hget _ _ _ => exact absurd hget (h.links _ _)

theorem avoids_of_target (h : Prunes D old fs fs') (hD : D ≠ []) (hp : p.isAbsolute = true)
    (htarget : fs'.target p = .ok (l, e)) : p.Avoids D := by
  obtain ⟨here, hstart, hfollow⟩ := resolve_eq_ok_iff.mp (target_eq_ok_iff.mp htarget)
  obtain ⟨-, -, -, rfl⟩ := start_eq_ok_iff.mp hstart
  rw [hp, if_pos rfl] at hfollow
  exact ⟨hp, h.avoids_of_follow hD (fun hroot => hD (List.prefix_nil.mp hroot)) hfollow⟩

theorem target_of_target (h : Prunes D old fs fs') (hD : D ≠ [])
    (hhere : ¬D <+: fs.workingDirectory) (htarget : fs'.target p = .ok (l, e)) :
    fs.target p = .ok (l, e) := by
  obtain ⟨here, hstart, hfollow⟩ := resolve_eq_ok_iff.mp (target_eq_ok_iff.mp htarget)
  have hstart' := (h.start p).symm.trans hstart
  obtain ⟨-, -, -, hbegin⟩ := start_eq_ok_iff.mp hstart'
  have hbelow : ¬D <+: here := by
    rw [hbegin]
    split
    · exact fun hroot => hD (List.prefix_nil.mp hroot)
    · exact hhere
  rw [h.follow (h.avoids_of_follow hD hbelow hfollow)] at hfollow
  exact target_eq_ok_iff.mpr (resolve_eq_ok_iff.mpr ⟨here, hstart', hfollow⟩)

theorem outside_of_target (h : Prunes D old fs fs') (hD : D ≠ []) (hp : p.isAbsolute = true)
    (htarget : fs'.target p = .ok (l, e)) (habove : ¬l <+: D) : p.Outside D := by
  refine ⟨h.avoids_of_target hD hp htarget, ?_⟩
  have hwalk := h.links.eq_walk_of_target htarget
  rw [hp, if_pos rfl] at hwalk
  exact hwalk ▸ habove

theorem apart_of_target (h : Prunes D old fs (fs.prune D)) (hD : D ≠ []) (hp : p.isAbsolute = true)
    (hsame : ∀ l e, fs.target p = .ok (l, e) → (fs.prune D).target p = .ok (l, e) ∧ ¬l <+: D) :
    Apart D fs p := by
  cases htarget : fs.target p with
  | ok found =>
    obtain ⟨htarget, habove⟩ := hsame found.1 found.2 htarget
    exact .inl (h.outside_of_target hD hp htarget habove)
  | error kind =>
    refine .inr ⟨by rw [FileSystem.isDirectory, htarget], ?_⟩
    rw [Bool.eq_false_iff]
    intro hthere
    obtain ⟨l, hl⟩ := isDirectory_iff.mp hthere
    have htarget' := target_eq_ok_iff.mpr hl
    rw [h.target (h.avoids_of_target hD hp htarget'), htarget] at htarget'
    cases htarget'

/-! ## Listing files -/

/-- The files below a place that is neither in `D` nor above it are the same without `D`. -/
theorem filesInside (h : Prunes D old fs fs') (hbelow : ¬D <+: l) (habove : ¬l <+: D)
    (skip : Text → Bool) (p : Path) : fs'.filesInside skip p l = fs.filesInside skip p l := by
  rw [h.eq, prune]
  exact filesInside_filter (f := fun k => !D.isPrefixOf k) fun _ =>
    keeps_iff.mpr (not_prefix_append habove hbelow).1

theorem eq_walk_of_resolve (h : Prunes D old fs fs') (hp : p.Avoids D)
    (hresolve : fs.resolve through p = .ok (.found l e)) : l = walk [] p.steps := by
  rw [← h.resolve hp] at hresolve
  obtain ⟨here, hstart, hfollow⟩ := resolve_eq_ok_iff.mp hresolve
  obtain ⟨rfl, -⟩ := start_absolute hp hstart
  exact h.links.eq_walk_of_follow hfollow

theorem filesBelow (h : Prunes D old fs fs') (hp : p.Outside D) (skip : Text → Bool) :
    fs'.filesBelow skip p = fs.filesBelow skip p := by
  unfold FileSystem.filesBelow
  rw [h.resolve hp.toAvoids]
  cases hresolve : fs.resolve false p with
  | error kind => cases kind <;> rfl
  | ok place =>
    obtain ⟨hbelow, -, hlink⟩ := h.reached hp.toAvoids hresolve
    cases place with
    | missing l rest => rfl
    | found l e =>
      have habove : ¬l <+: D := by
        rw [h.eq_walk_of_resolve hp.toAvoids hresolve]
        exact hp.apart
      cases e with
      | directory =>
        dsimp only
        rw [h.filesInside (l := l) hbelow habove]
      | file content executable => rfl
      | link target => exact absurd rfl (hlink l target)

theorem beside_of_mem_filesBelow (h : Prunes D old fs fs') (hp : p.Beside D) {skip : Text → Bool}
    {files : List Path} (hfiles : fs.filesBelow skip p = .ok files) :
    ∀ file ∈ files, file.Beside D := by
  have hout := hp.outside
  rw [← h.filesBelow hout] at hfiles
  have hinside {l : Location} {file : Path} (hfile : file ∈ fs'.filesInside skip p l) :
      file.Beside D := by
    obtain ⟨names, _, _, hne, hmem, -, rfl⟩ := mem_filesInside.mp hfile
    exact hout.foldl_join hne fun n hn => h.names _ hmem n (List.mem_append_right _ hn)
  intro file hfile
  cases WalkGives.of_filesBelow hfiles with
  | directory _ =>
    split at hfile
    · cases hfile
    · exact hinside hfile
  | file _ =>
    split at hfile
    · cases hfile
    · exact List.mem_singleton.mp hfile ▸ hp
  | link _ _ => exact hinside hfile
  | nothing _ _ => cases hfile

/-! ## Listing directories -/

theorem namesIn (h : Prunes D old fs fs') (hbelow : ¬D <+: l) (habove : ¬l <+: D) :
    fs'.namesIn l = fs.namesIn l := by
  unfold FileSystem.namesIn
  rw [h.eq, prune]
  apply filterMap_filter_of_none
  rintro ⟨k, e⟩ - hkeep
  rw [Bool.not_eq_false', List.isPrefixOf_iff_prefix] at hkeep
  rcases List.eq_nil_or_concat k with rfl | ⟨above, name, rfl⟩
  · rfl
  · rw [List.concat_eq_append] at hkeep ⊢
    simp only [List.getLast?_concat, List.dropLast_concat]
    rw [if_neg]
    rintro rfl
    exact (not_prefix_append habove hbelow).1 hkeep

/-- What a directory outside of `D` holds is the same without `D`, and lies beside it. -/
theorem list (h : Prunes D old fs fs') (hp : p.Outside D) :
    fs'.list p = fs.list p ∧ ∀ ps, fs.list p = .ok ps → ∀ q ∈ ps, q.Beside D := by
  unfold FileSystem.list
  rw [h.target hp.toAvoids]
  cases htarget : fs.target p with
  | error kind =>
    dsimp only [bind, Except.bind]
    exact ⟨rfl, fun _ => nofun⟩
  | ok found =>
    obtain ⟨l, e⟩ := found
    have hresolve := target_eq_ok_iff.mp htarget
    obtain ⟨hbelow, -, -⟩ := h.reached hp.toAvoids hresolve
    have habove : ¬l <+: D := by
      rw [h.eq_walk_of_resolve hp.toAvoids hresolve]
      exact hp.apart
    dsimp only [bind, Except.bind]
    cases e with
    | directory =>
      dsimp only
      have hnamesIn : fs'.namesIn l = fs.namesIn l := h.namesIn hbelow habove
      rw [hnamesIn]
      refine ⟨rfl, ?_⟩
      rintro ps ⟨⟩ q hq
      obtain ⟨name, hname, rfl⟩ := List.mem_map.mp hq
      rw [← hnamesIn] at hname
      obtain ⟨e, hmem⟩ := mem_namesIn.mp hname
      have hentry := h.names _ hmem name (by simp)
      exact hp.join hentry.component hentry.slash
    | _ => exact ⟨rfl, fun _ => nofun⟩

theorem subdirectories (h : Prunes D old fs fs') (hp : p.Outside D) :
    fs'.subdirectories p = fs.subdirectories p ∧
      ∀ dirs, fs.subdirectories p = .ok dirs → ∀ dir ∈ dirs, dir.Outside D := by
  obtain ⟨hsame, hbeside⟩ := h.list hp
  unfold FileSystem.subdirectories
  rw [hsame]
  cases hlist : fs.list p with
  | error kind => cases kind <;> exact ⟨rfl, by simp⟩
  | ok ps =>
    have hdirs : ps.filter fs'.isDirectory = ps.filter fs.isDirectory :=
      List.filter_congr fun q hq => h.isDirectory (hbeside ps hlist q hq).avoids
    dsimp only
    rw [hdirs]
    refine ⟨rfl, ?_⟩
    rintro dirs ⟨⟩ dir hdir
    exact (hbeside ps hlist dir (List.mem_filter.mp (List.mem_mergeSort.mp hdir)).1).outside

end Prunes

theorem namesIn_prune : (fs.prune (l ++ [name])).namesIn l = (fs.namesIn l).filter (· ≠ name) := by
  unfold namesIn prune
  rw [List.filterMap_filter, List.filter_filterMap]
  congr 1
  funext ⟨k, e⟩
  rcases List.eq_nil_or_concat k with rfl | ⟨above, last, rfl⟩
  · simp
  · rw [List.concat_eq_append]
    simp only [List.getLast?_concat, List.dropLast_concat]
    by_cases habove : above = l
    · subst habove
      have hsame : (above ++ [name]).isPrefixOf (above ++ [last]) = decide (last = name) := by
        rw [Bool.eq_iff_iff, List.isPrefixOf_iff_prefix, List.prefix_append_right_inj,
          List.cons_prefix_cons, decide_eq_true_iff, eq_comm]
        exact and_iff_left List.nil_prefix
      by_cases hlast : last = name <;> simp [hsame, hlast, Option.filter]
    · simp [habove]

theorem directoryNames_prune (tree : fs.IsTree) (links : (fs.prune (l ++ [name])).NoLinks)
    (hl : ∀ n ∈ l, IsEntryName n) : (fs.prune (l ++ [name])).directoryNames (pathOf l) l =
      (fs.directoryNames (pathOf l) l).filter (· ≠ name) := by
  rw [directoryNames, directoryNames, ← mergeSort_filter nameLe_trans nameLe_total nameLe_antisymm,
    namesIn_prune, List.filter_filter, List.filter_filter]
  congr 1
  apply List.filter_congr
  intro n hn
  by_cases hne : n = name
  · simp [hne]
  · have hentry := tree.names_of_mem_namesIn hn
    have hout : (pathOf (l ++ [n])).Avoids (l ++ [name]) :=
      Path.avoids_pathOf (hentry.concat hl) (not_prefix_sibling hne)
    rw [join_pathOf_name hl hentry.slash, (prunes_self tree links).isDirectory hout, Bool.and_comm]

/-- The directories in the directory that holds `D`: those in front of `D`, then `D` itself, then
those behind it. -/
theorem subdirectories_prune (tree : fs.IsTree) (tree' : (fs.prune (l ++ [name])).IsTree)
    (links : (fs.prune (l ++ [name])).NoLinks) (hthere : fs.get? (l ++ [name]) = some .directory)
    (hsize : nameSize (pathOf (l ++ [name])).text ≤ pathLimit) :
    ∃ front back,
      fs.subdirectories (pathOf l) = .ok (front ++ pathOf (l ++ [name]) :: back) ∧
      (fs.prune (l ++ [name])).subdirectories (pathOf l) = .ok (front ++ back) ∧
      ∀ dir ∈ front ++ back, dir.Outside (l ++ [name]) := by
  have hnames := tree.names_of_get? hthere
  have hl : ∀ n ∈ l, IsEntryName n := fun n hn => hnames n (List.mem_append_left _ hn)
  have hname : IsEntryName name := hnames name (by simp)
  have hbelow : ¬l ++ [name] <+: l := fun h => by
    have hlength := h.length_le
    rw [List.length_append, List.length_singleton] at hlength
    omega
  have hget := tree.directory_of_get? hthere
  have hsizel := Nat.le_trans (nameSize_pathOf_le l name) hsize
  have hmem : name ∈ fs.directoryNames (pathOf l) l := by
    refine mem_directoryNames.mpr ⟨mem_namesIn.mpr ⟨_, mem_of_get? hthere (by simp)⟩, ?_⟩
    rw [join_pathOf_name hl hname.slash, isDirectory_iff]
    exact ⟨_, target_eq_ok_iff.mp (tree.target_pathOf hthere (by simp) hsize)⟩
  -- the name is listed once, so the listing without `D` is the one with it less that name
  obtain ⟨front, back, hsplit, hrest⟩ :=
    exists_split_of_nodup (tree.nodup_directoryNames (pathOf l) l) hmem
  have hsub := tree.subdirectories_pathOf hl (tree.target_pathOf hget (by simp) hsizel)
  have hsub' := tree'.subdirectories_pathOf hl
    (tree'.target_pathOf ((get?_prune hbelow).trans hget) (by simp) hsizel)
  rw [hsplit] at hsub
  rw [directoryNames_prune tree links hl, hrest] at hsub'
  refine ⟨front.map fun n => pathOf (l ++ [n]), back.map fun n => pathOf (l ++ [n]), ?_, ?_, ?_⟩
  · rw [hsub, List.map_append, List.map_cons]
  · rw [hsub', List.map_append]
  · intro dir hdir
    rw [← List.map_append, ← hrest, List.mem_map] at hdir
    obtain ⟨n, hn, rfl⟩ := hdir
    obtain ⟨hn, hne⟩ := List.mem_filter.mp hn
    have hentry := tree.names_of_mem_namesIn (mem_directoryNames.mp hn).1
    have hne : n ≠ name := by simpa using hne
    exact Path.outside_pathOf (hentry.concat hl) (not_prefix_sibling hne)
      (not_prefix_sibling hne.symm)

end FileSystem

end ExtensionAudit
