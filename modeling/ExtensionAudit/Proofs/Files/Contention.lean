import ExtensionAudit.Proofs.Files.Replacing
/-
  Two writers of one file. They belong to one process, so their temporary files
  have one name, and what a name leads to is shared: a writer empties the file as
  it opens it, before it takes the lock, and writes through the file that it has
  opened, whatever that is called by then. So the lock keeps nothing apart, and
  the target shows whole contents at every moment exactly when no writer opens or
  renames while the other one has opened the file and not written it yet.

  Main statements: `Tidy.step`, `Tangled.step`, `shows_whole_iff`, and
  `shows_in_part`, schedules where the target is empty for a while, or keeps a mixture.
-/

namespace ExtensionAudit

/-- One of two writers of the same file. -/
inductive Writer where
  | first
  | second
  deriving DecidableEq, Repr

theorem Writer.eq_or_eq {i j : Writer} (h : j ≠ i) (k : Writer) : k = i ∨ k = j := by
  cases i <;> cases j <;> cases k <;> simp_all

/-- Two replacements of one file by one process, between two of their steps. Files are numbered;
the one that was the target before them has no number. -/
structure Contest where
  /-- the file under the name of the temporary file -/
  temporary : Option Nat
  /-- the file under the name of the target, unless it is the one from before -/
  target : Option Nat
  /-- who has written a file since it was last emptied, latest first -/
  written : Nat → List Writer
  /-- who holds the lock of a file -/
  holder : Nat → Option Writer
  /-- the number of the file that is made next -/
  fresh : Nat
  /-- the file that a writer has opened -/
  handle : Writer → Option Nat
  /-- the steps that a writer has not done yet -/
  todo : Writer → List WriteStep

namespace Contest

/-- The function with another value at one place. -/
def update {α β : Type} [DecidableEq α] (f : α → β) (a : α) (b : β) : α → β :=
  fun x => if x = a then b else f x

@[simp] theorem update_self {α β : Type} [DecidableEq α] (f : α → β) (a : α) (b : β) :
    update f a b a = b := if_pos rfl

theorem update_of_ne {α β : Type} [DecidableEq α] {f : α → β} {a x : α} {b : β} (h : x ≠ a) :
    update f a b x = f x := if_neg h

/-- No step has been done. -/
def start : Contest where
  temporary := none
  target := none
  written := fun _ => []
  holder := fun _ => none
  fresh := 0
  handle := fun _ => none
  todo := fun _ => WriteStep.all

/-- The file that is there under the name of the temporary file, or one that is made, is emptied
and opened. -/
def opened (s : Contest) (i : Writer) : Contest :=
  let n := s.temporary.getD s.fresh
  { s with
    temporary := some n
    written := update s.written n []
    fresh := max s.fresh (n + 1)
    handle := update s.handle i (some n) }

/-- A file is written from its beginning on. -/
def wrote (s : Contest) (i : Writer) (n : Nat) : Contest :=
  { s with written := update s.written n (i :: s.written n) }

/-- The temporary file becomes the target; where the other one has come first, nothing is found. -/
def renamed (s : Contest) : Contest :=
  { s with target := s.temporary.or s.target, temporary := none }

/-- A lock is taken or given back. -/
def lockedBy (s : Contest) (n : Nat) (holder : Option Writer) : Contest :=
  { s with holder := update s.holder n holder }

/-- What a step of a writer does, unless it has to wait for the lock. -/
def perform (s : Contest) (i : Writer) : WriteStep → Option Contest
  | .makeParents => some s
  | .openTemporary => some (s.opened i)
  | .lock => do
    let n ← s.handle i
    if (s.holder n).all (· = i) then some (s.lockedBy n i) else none
  | .write => (s.handle i).map (s.wrote i)
  | .sync => some s
  | .unlock => (s.handle i).map (s.lockedBy · none)
  | .rename => some s.renamed

/-- A writer has these steps left to do. -/
def advance (s : Contest) (i : Writer) (rest : List WriteStep) : Contest :=
  { s with todo := update s.todo i rest }

/-- The next step of a writer, if there is one and it need not wait. -/
def step (s : Contest) (i : Writer) : Option Contest :=
  match s.todo i with
  | [] => none
  | next :: rest => (s.perform i next).map (·.advance i rest)

/-- The moments on the way of a schedule, which says whose turn it is, if none of its steps has to
wait. -/
def play (s : Contest) : List Writer → Option (List Contest)
  | [] => some [s]
  | i :: schedule => do
    let s' ← s.step i
    let moments ← s'.play schedule
    return s :: moments

/-- What a file holds: each content stands from the beginning on over what was there. -/
def bytes (c : Writer → ByteArray) : List Writer → ByteArray
  | [] => .empty
  | i :: before => c i ++ (bytes c before).extract (c i).size (bytes c before).size

/-- What the target holds, from the contents to be written and the original one. -/
def shown (s : Contest) (c : Writer → ByteArray) (original : Option ByteArray) :
    Option ByteArray :=
  match s.target with
  | some n => some (bytes c (s.written n))
  | none => original

/-- What the temporary file holds. -/
def standing (s : Contest) (c : Writer → ByteArray) : Option ByteArray :=
  s.temporary.map fun n => bytes c (s.written n)

/-- Whether a writer has opened the temporary file and not written it yet. -/
def HalfWritten (s : Contest) (i : Writer) : Prop :=
  .openTemporary ∉ s.todo i ∧ .write ∈ s.todo i

/-- Whether a writer is about to open or rename while the other one is half-written. -/
def Disturbs (s : Contest) (i : Writer) : Prop :=
  (s.todo i).head? ∈ [some .openTemporary, some .rename] ∧ ∃ j, j ≠ i ∧ s.HalfWritten j

instance (s : Contest) (i : Writer) : Decidable (s.HalfWritten i) := by
  unfold HalfWritten
  infer_instance

instance (s : Contest) (i : Writer) : Decidable (s.Disturbs i) :=
  decidable_of_iff ((s.todo i).head? ∈ [some .openTemporary, some .rename] ∧
    ((.first ≠ i ∧ s.HalfWritten .first) ∨ (.second ≠ i ∧ s.HalfWritten .second))) <|
    and_congr_right fun _ => by
      constructor
      · rintro (h | h)
        · exact ⟨_, h⟩
        · exact ⟨_, h⟩
      · rintro ⟨j, h⟩
        cases j with
        | first => exact .inl h
        | second => exact .inr h

/-- Whether no step of a schedule disturbs the other writer. -/
def orderly (s : Contest) : List Writer → Bool
  | [] => true
  | i :: schedule => !decide (s.Disturbs i) && (s.step i).all (·.orderly schedule)

variable {s s' : Contest} {i : Writer}

/-! ## What a step does -/

/-- A step opens the temporary file, writes through the handle, renames, or changes no file. -/
theorem step_cases (h : s.step i = some s') :
    ∃ next rest, s.todo i = next :: rest ∧
      match next with
      | .openTemporary => s' = (s.opened i).advance i rest
      | .write => ∃ n, s.handle i = some n ∧ s' = (s.wrote i n).advance i rest
      | .rename => s' = s.renamed.advance i rest
      | _ => ∃ holder, s' = advance { s with holder := holder } i rest := by
  unfold step at h
  split at h
  · cases h
  · rename_i next rest htodo
    obtain ⟨s₁, hperform, rfl⟩ := Option.map_eq_some_iff.mp h
    refine ⟨next, rest, htodo, ?_⟩
    cases next with
    | makeParents | sync =>
      cases hperform
      exact ⟨_, rfl⟩
    | openTemporary | rename =>
      cases hperform
      rfl
    | lock =>
      obtain ⟨n, -, hn⟩ := Option.bind_eq_some_iff.mp hperform
      split at hn
      · cases hn
        exact ⟨_, rfl⟩
      · cases hn
    | write =>
      obtain ⟨n, hhandle, rfl⟩ := Option.map_eq_some_iff.mp hperform
      exact ⟨n, hhandle, rfl⟩
    | unlock =>
      obtain ⟨n, -, rfl⟩ := Option.map_eq_some_iff.mp hperform
      exact ⟨_, rfl⟩

theorem halfWritten_update {next : WriteStep} {rest : List WriteStep}
    (hsuffix : s.todo i <:+ WriteStep.all) (htodo : s.todo i = next :: rest)
    (hs' : s'.todo = update s.todo i rest) (j : Writer) :
    s'.HalfWritten j ↔
      if j = i then (next = .openTemporary ∨ (s.HalfWritten i ∧ next ≠ .write))
      else s.HalfWritten j := by
  unfold HalfWritten
  rw [hs']
  by_cases hj : j = i
  · subst hj
    rw [htodo] at hsuffix ⊢
    obtain rfl := WriteStep.rest_eq_behind hsuffix
    cases next <;> simp [WriteStep.behind, WriteStep.all]
  · rw [update_of_ne hj, if_neg hj]

/-! ## Runs that disturb no one -/

/-- What stands of the files while no one is disturbed: the target has been written by one writer
alone, and so has the temporary file, unless a writer is half-written, which then has it open and
empty. -/
structure Tidy (s : Contest) : Prop where
  suffix : ∀ i, s.todo i <:+ WriteStep.all
  bound : ∀ n, s.temporary = some n ∨ s.target = some n → n < s.fresh
  apart : ∀ n, s.temporary = some n → s.target ≠ some n
  target : ∀ n, s.target = some n → ∃ i, s.written n = [i]
  ready : (∀ i, ¬s.HalfWritten i) → ∀ n, s.temporary = some n → ∃ i, s.written n = [i]
  half : ∀ i, s.HalfWritten i →
    ∃ n, s.temporary = some n ∧ s.handle i = some n ∧ s.written n = []
  alone : ∀ i j, s.HalfWritten i → s.HalfWritten j → i = j

theorem tidy_start : Tidy start := by
  have hhalf (i : Writer) : ¬start.HalfWritten i := fun h => h.1 (by simp [start, WriteStep.all])
  exact ⟨fun _ => List.suffix_refl _, by simp [start], by simp [start], by simp [start],
    by simp [start], fun i h => absurd h (hhalf i), fun i _ h => absurd h (hhalf i)⟩

theorem suffix_update {rest : List WriteStep} {next : WriteStep}
    (hsuffix : ∀ j, s.todo j <:+ WriteStep.all) (htodo : s.todo i = next :: rest)
    (hs' : s'.todo = update s.todo i rest) (j : Writer) : s'.todo j <:+ WriteStep.all := by
  rw [hs']
  by_cases hj : j = i
  · subst hj
    rw [update_self]
    exact ((htodo ▸ List.suffix_cons next rest : rest <:+ s.todo j)).trans (hsuffix j)
  · rw [update_of_ne hj]
    exact hsuffix j

section Steps

variable {rest : List WriteStep} {n : Nat} (h : Tidy s)

include h

theorem Tidy.opens (htodo : s.todo i = .openTemporary :: rest)
    (hothers : ∀ j, j ≠ i → ¬s.HalfWritten j) : Tidy ((s.opened i).advance i rest) := by
  have hhalf := @halfWritten_update s ((s.opened i).advance i rest) i _ _ (h.suffix i) htodo rfl
  have hself {j : Writer} (hj : ((s.opened i).advance i rest).HalfWritten j) : j = i :=
    Decidable.byContradiction fun hji => hothers j hji (by simpa [hji] using (hhalf j).mp hj)
  have htarget : ∀ k, s.target = some k → k ≠ s.temporary.getD s.fresh := by
    intro k hk
    cases htemporary : s.temporary with
    | none => exact Nat.ne_of_lt (h.bound k (.inr hk))
    | some n =>
      rintro rfl
      exact h.apart _ htemporary hk
  constructor
  · exact suffix_update h.suffix htodo rfl
  · rintro k (hk | hk)
    · cases hk
      exact Nat.lt_of_lt_of_le (Nat.lt_succ_self _) (Nat.le_max_right _ _)
    · exact Nat.lt_of_lt_of_le (h.bound k (.inr hk)) (Nat.le_max_left _ _)
  · rintro k ⟨⟩ hk
    exact htarget _ hk rfl
  · intro k hk
    obtain ⟨j, hj⟩ := h.target k hk
    exact ⟨j, (update_of_ne (htarget k hk)).trans hj⟩
  · intro hnone
    exact absurd ((hhalf i).mpr (by simp)) (hnone i)
  · intro j hj
    obtain rfl := hself hj
    exact ⟨_, rfl, update_self _ _ _, update_self _ _ _⟩
  · intro j k hj hk
    rw [hself hj, hself hk]

theorem Tidy.writes (htodo : s.todo i = .write :: rest) (hhandle : s.handle i = some n) :
    Tidy ((s.wrote i n).advance i rest) := by
  have hhalf := @halfWritten_update s ((s.wrote i n).advance i rest) i _ _ (h.suffix i) htodo rfl
  have hi : s.HalfWritten i := by
    obtain rfl := WriteStep.rest_eq_behind (htodo ▸ h.suffix i)
    simp [HalfWritten, htodo, WriteStep.behind, WriteStep.all]
  have hnone (j : Writer) : ¬((s.wrote i n).advance i rest).HalfWritten j := fun hj => by
    by_cases hji : j = i
    · simpa [hji] using (hhalf j).mp hj
    · exact hji (h.alone j i (by simpa [hji] using (hhalf j).mp hj) hi)
  obtain ⟨m, htemporary, hm, hempty⟩ := h.half i hi
  obtain rfl := Option.some.inj (hm.symm.trans hhandle)
  constructor
  · exact suffix_update h.suffix htodo rfl
  · exact h.bound
  · exact h.apart
  · intro k hk
    have hkm : k ≠ m := by
      rintro rfl
      exact h.apart k htemporary hk
    obtain ⟨j, hj⟩ := h.target k hk
    exact ⟨j, (update_of_ne hkm).trans hj⟩
  · intro _ k hk
    obtain rfl := Option.some.inj (htemporary.symm.trans hk)
    exact ⟨i, (update_self _ _ _).trans (by rw [hempty])⟩
  · exact fun j hj => absurd hj (hnone j)
  · exact fun j _ hj => absurd hj (hnone j)

theorem Tidy.renames (htodo : s.todo i = .rename :: rest)
    (hothers : ∀ j, j ≠ i → ¬s.HalfWritten j) : Tidy (s.renamed.advance i rest) := by
  have hhalf := @halfWritten_update s (s.renamed.advance i rest) i _ _ (h.suffix i) htodo rfl
  have hnone (j : Writer) : ¬s.HalfWritten j := by
    by_cases hji : j = i
    · subst hji
      obtain rfl := WriteStep.rest_eq_behind (htodo ▸ h.suffix j)
      simp [HalfWritten, htodo, WriteStep.behind, WriteStep.all]
    · exact hothers j hji
  have hnone' (j : Writer) : ¬(s.renamed.advance i rest).HalfWritten j := fun hj => by
    by_cases hji : j = i
    · exact hnone i (by simpa [hji] using (hhalf j).mp hj)
    · exact hnone j (by simpa [hji] using (hhalf j).mp hj)
  have htarget {k : Nat} (hk : s.temporary.or s.target = some k) :
      s.temporary = some k ∨ s.target = some k := by
    cases htemporary : s.temporary with
    | none => exact .inr (by simpa [htemporary] using hk)
    | some m => exact .inl (by simpa [htemporary] using hk)
  constructor
  · exact suffix_update h.suffix htodo rfl
  · rintro k (hk | hk)
    · cases hk
    · exact h.bound k (htarget hk)
  · intro k hk
    cases hk
  · intro k hk
    rcases htarget hk with hk | hk
    · exact h.ready hnone k hk
    · exact h.target k hk
  · intro _ k hk
    cases hk
  · exact fun j hj => absurd hj (hnone' j)
  · exact fun j _ hj => absurd hj (hnone' j)

theorem Tidy.waits {next : WriteStep} (htodo : s.todo i = next :: rest)
    (hquiet : next ∉ [.openTemporary, .write, .rename]) (holder : Nat → Option Writer) :
    Tidy (advance { s with holder := holder } i rest) := by
  have hhalf (j : Writer) :
      (advance { s with holder := holder } i rest).HalfWritten j ↔ s.HalfWritten j := by
    rw [halfWritten_update (h.suffix i) htodo rfl]
    by_cases hji : j = i
    · have hnext : next ≠ .openTemporary ∧ next ≠ .write := by simp_all
      simp [hji, hnext]
    · rw [if_neg hji]
  constructor
  · exact suffix_update h.suffix htodo rfl
  · exact h.bound
  · exact h.apart
  · exact h.target
  · exact fun hnone => h.ready fun j hj => hnone j ((hhalf j).mpr hj)
  · exact fun j hj => h.half j ((hhalf j).mp hj)
  · exact fun j k hj hk => h.alone j k ((hhalf j).mp hj) ((hhalf k).mp hk)

/-- A step that disturbs no one keeps the files tidy. -/
theorem Tidy.step (hstep : s.step i = some s') (hquiet : ¬s.Disturbs i) : Tidy s' := by
  obtain ⟨next, rest, htodo, hnext⟩ := step_cases hstep
  have hothers (hkind : next = .openTemporary ∨ next = .rename) (j : Writer) (hj : j ≠ i) :
      ¬s.HalfWritten j := by
    intro hhalf
    refine hquiet ⟨?_, j, hj, hhalf⟩
    rcases hkind with rfl | rfl <;> simp [htodo]
  cases next with
  | openTemporary =>
    cases hnext
    exact h.opens htodo (hothers (.inl rfl))
  | write =>
    obtain ⟨n, hhandle, rfl⟩ := hnext
    exact h.writes htodo hhandle
  | rename =>
    cases hnext
    exact h.renames htodo (hothers (.inr rfl))
  | makeParents | lock | sync | unlock =>
    obtain ⟨holder, rfl⟩ := hnext
    exact h.waits htodo (by decide) holder

end Steps

/-! ## After a disturbance -/

/-- What stands of the files once both writers have opened the same one: it becomes the target, and
the later content is written over the earlier one. -/
structure Tangled (s : Contest) (n : Nat) : Prop where
  suffix : ∀ i, s.todo i <:+ WriteStep.all
  opened : ∀ i, .openTemporary ∉ s.todo i
  handle : ∀ i, s.handle i = some n
  written : ∀ i, i ∈ s.written n ↔ .write ∉ s.todo i
  nodup : (s.written n).Nodup
  place : (s.temporary = some n ∧ ∀ i, .rename ∈ s.todo i) ∨
    (s.temporary = none ∧ s.target = some n)

/-- Whether the target is empty, or holds one content over another one. -/
def Spoilt (s : Contest) : Prop :=
  ∃ n, s.target = some n ∧ (s.written n = [] ∨ ∃ i j, i ≠ j ∧ s.written n = [i, j])

theorem mem_update {rest : List WriteStep} {next kind : WriteStep}
    (hsuffix : s.todo i <:+ WriteStep.all) (htodo : s.todo i = next :: rest)
    (hs' : s'.todo = update s.todo i rest) (j : Writer) :
    kind ∈ s'.todo j ↔ kind ∈ s.todo j ∧ ¬(j = i ∧ kind = next) := by
  rw [hs']
  by_cases hj : j = i
  · subst hj
    rw [htodo] at hsuffix ⊢
    obtain rfl := WriteStep.rest_eq_behind hsuffix
    cases next <;> cases kind <;> simp [WriteStep.behind, WriteStep.all]
  · rw [update_of_ne hj]
    simp [hj]

theorem rename_mem {steps : List WriteStep} {kind : WriteStep} (h : steps <:+ WriteStep.all)
    (hkind : kind ∈ steps) : .rename ∈ steps := by
  obtain ⟨next, rest, rfl⟩ := List.exists_cons_of_ne_nil (List.ne_nil_of_mem hkind)
  obtain rfl := WriteStep.rest_eq_behind h
  cases next <;> decide

/-- Opening a file that the other writer has open and has not written tangles them. -/
theorem Tidy.tangles {rest : List WriteStep} {j : Writer} (h : Tidy s)
    (htodo : s.todo i = .openTemporary :: rest) (hj : j ≠ i) (hhalf : s.HalfWritten j) :
    ∃ n, Tangled ((s.opened i).advance i rest) n := by
  obtain ⟨n, htemporary, hhandle, hempty⟩ := h.half j hhalf
  have hn : s.temporary.getD s.fresh = n := by rw [htemporary, Option.getD_some]
  have hmem {kind : WriteStep} (k : Writer) :=
    @mem_update s ((s.opened i).advance i rest) i _ _ kind (h.suffix i) htodo rfl k
  have hwrite (k : Writer) : .write ∈ ((s.opened i).advance i rest).todo k := by
    refine (hmem k).mpr ⟨?_, by simp⟩
    rcases Writer.eq_or_eq hj k with rfl | rfl
    · obtain rfl := WriteStep.rest_eq_behind (htodo ▸ h.suffix k)
      simp [htodo, WriteStep.behind, WriteStep.all]
    · exact hhalf.2
  have hsuffix := @suffix_update s ((s.opened i).advance i rest) i _ _ h.suffix htodo rfl
  have hwritten : ((s.opened i).advance i rest).written n = [] := by
    simp [advance, opened, hn]
  refine ⟨n, hsuffix, fun k hopen => ?_, fun k => ?_, fun k => ?_, ?_, ?_⟩
  · obtain ⟨hopen, hother⟩ := (hmem k).mp hopen
    rcases Writer.eq_or_eq hj k with rfl | rfl
    · exact hother ⟨rfl, rfl⟩
    · exact hhalf.1 hopen
  · rcases Writer.eq_or_eq hj k with rfl | rfl
    · simp [advance, opened, hn]
    · simp [advance, opened, update_of_ne hj, hhandle]
  · simp [hwritten, hwrite k]
  · simp [hwritten]
  · exact .inl ⟨by simp [advance, opened, hn], fun k => rename_mem (hsuffix k) (hwrite k)⟩

/-- Every step leaves tangled writers tangled. -/
theorem Tangled.step {n : Nat} (h : Tangled s n) (hstep : s.step i = some s') : Tangled s' n := by
  obtain ⟨next, rest, htodo, hnext⟩ := step_cases hstep
  have hopened : next ≠ .openTemporary := by
    rintro rfl
    exact h.opened i (by simp [htodo])
  have htodo' : s'.todo = update s.todo i rest := by
    cases next with
    | openTemporary => exact absurd rfl hopened
    | write => obtain ⟨k, -, rfl⟩ := hnext; rfl
    | rename => cases hnext; rfl
    | makeParents | lock | sync | unlock => obtain ⟨holder, rfl⟩ := hnext; rfl
  have hmem {kind : WriteStep} (k : Writer) :=
    @mem_update s s' i _ _ kind (h.suffix i) htodo htodo' k
  have hsuffix := suffix_update h.suffix htodo htodo'
  have hopen (k : Writer) : .openTemporary ∉ s'.todo k :=
    fun hk => h.opened k ((hmem k).mp hk).1
  -- all writers have the one file open, so a write adds to what it holds, and a rename moves it
  cases next with
  | openTemporary => exact absurd rfl hopened
  | write =>
    obtain ⟨k, hk, rfl⟩ := hnext
    obtain rfl := Option.some.inj ((h.handle i).symm.trans hk)
    have hnew : i ∉ s.written n := by simp [h.written, htodo]
    have hwritten : ((s.wrote i n).advance i rest).written n = i :: s.written n := update_self _ _ _
    refine ⟨hsuffix, hopen, h.handle, fun j => ?_, ?_, ?_⟩
    · rw [hwritten, hmem, List.mem_cons, h.written]
      by_cases hj : j = i <;> simp [hj]
    · rw [hwritten]
      exact List.nodup_cons.mpr ⟨hnew, h.nodup⟩
    · rcases h.place with ⟨htemporary, hrename⟩ | hplace
      · exact .inl ⟨htemporary, fun j => (hmem j).mpr ⟨hrename j, by simp⟩⟩
      · exact .inr hplace
  | rename =>
    cases hnext
    refine ⟨hsuffix, hopen, h.handle, fun j => ?_, h.nodup, .inr ⟨rfl, ?_⟩⟩
    · exact (h.written j).trans (not_congr (by simp [hmem]))
    · rcases h.place with ⟨htemporary, -⟩ | ⟨htemporary, htarget⟩
      · simp [advance, renamed, htemporary]
      · simp [advance, renamed, htemporary, htarget]
  | makeParents | lock | sync | unlock =>
    obtain ⟨holder, rfl⟩ := hnext
    refine ⟨hsuffix, hopen, h.handle, fun j => ?_, h.nodup, ?_⟩
    · exact (h.written j).trans (not_congr (by simp [hmem]))
    · rcases h.place with ⟨htemporary, hrename⟩ | hplace
      · exact .inl ⟨htemporary, fun j => (hmem j).mpr ⟨hrename j, by simp⟩⟩
      · exact .inr hplace

theorem Tangled.spoilt {n : Nat} (h : Tangled s n) (hdone : ∀ i, s.todo i = []) : s.Spoilt := by
  have hboth (i : Writer) : i ∈ s.written n := by simp [h.written, hdone]
  have htarget : s.target = some n := by
    rcases h.place with ⟨-, hrename⟩ | ⟨-, htarget⟩
    · simpa [hdone] using hrename .first
    · exact htarget
  refine ⟨n, htarget, .inr ?_⟩
  have hnodup := h.nodup
  -- two writers, each once
  match hwritten : s.written n with
  | [] => simpa [hwritten] using hboth .first
  | [i] =>
    have hfirst := hboth .first
    have hsecond := hboth .second
    simp only [hwritten, List.mem_singleton] at hfirst hsecond
    exact nomatch hfirst.trans hsecond.symm
  | [i, j] =>
    rw [hwritten] at hnodup
    exact ⟨i, j, by simpa using hnodup, rfl⟩
  | i :: j :: k :: _ =>
    rw [hwritten] at hnodup
    cases i <;> cases j <;> cases k <;> simp at hnodup

/-- Renaming a file that the other writer has open and has not written leaves the target empty. -/
theorem Tidy.spoils {rest : List WriteStep} {j : Writer} (h : Tidy s) (hhalf : s.HalfWritten j) :
    (s.renamed.advance i rest).Spoilt := by
  obtain ⟨n, htemporary, -, hempty⟩ := h.half j hhalf
  exact ⟨n, by simp [advance, renamed, htemporary], .inl hempty⟩

/-! ## Schedules -/

variable {schedule : List Writer} {moments : List Contest} {n : Nat}

theorem play_cons (h : s.play (i :: schedule) = some moments) :
    ∃ s' later, s.step i = some s' ∧ s'.play schedule = some later ∧ moments = s :: later := by
  obtain ⟨s', hstep, h⟩ := Option.bind_eq_some_iff.mp h
  obtain ⟨later, hplay, h⟩ := Option.bind_eq_some_iff.mp h
  exact ⟨s', later, hstep, hplay, (Option.some.inj h).symm⟩

theorem eq_cons_of_play (h : s.play schedule = some moments) : ∃ later, moments = s :: later := by
  cases schedule with
  | nil =>
    cases h
    exact ⟨[], rfl⟩
  | cons i schedule =>
    obtain ⟨_, later, -, -, rfl⟩ := play_cons h
    exact ⟨later, rfl⟩

theorem forall_of_play {P : Contest → Prop} (hstep : ∀ s i s', P s → s.step i = some s' → P s')
    (hs : P s) (h : s.play schedule = some moments) : ∀ m ∈ moments, P m := by
  induction schedule generalizing s moments with
  | nil =>
    cases h
    simpa using hs
  | cons i schedule ih =>
    obtain ⟨s', later, hs', hplay, rfl⟩ := play_cons h
    exact List.forall_mem_cons.mpr ⟨hs, ih (hstep s i s' hs hs') hplay⟩

theorem Tidy.of_orderly (hs : Tidy s) (h : s.play schedule = some moments)
    (horderly : s.orderly schedule = true) : ∀ m ∈ moments, Tidy m := by
  induction schedule generalizing s moments with
  | nil =>
    cases h
    simpa using hs
  | cons i schedule ih =>
    obtain ⟨s', later, hs', hplay, rfl⟩ := play_cons h
    simp only [orderly, hs', Option.all_some, Bool.and_eq_true, Bool.not_eq_true',
      decide_eq_false_iff_not] at horderly
    obtain ⟨hquiet, hrest⟩ := horderly
    exact List.forall_mem_cons.mpr ⟨hs, ih (hs.step hs' hquiet) hplay hrest⟩

/-- A schedule that disturbs a writer and goes to the end spoils the target on its way. -/
theorem Tidy.spoilt_of_not_orderly (hs : Tidy s) (h : s.play schedule = some moments)
    {last : Contest} (hlast : moments.getLast? = some last) (hdone : ∀ i, last.todo i = [])
    (hdisorderly : s.orderly schedule = false) : ∃ m ∈ moments, m.Spoilt := by
  induction schedule generalizing s moments with
  | nil => cases hdisorderly
  | cons i schedule ih =>
    obtain ⟨s', later, hs', hplay, rfl⟩ := play_cons h
    obtain ⟨rest, rfl⟩ := eq_cons_of_play hplay
    rw [List.getLast?_cons_cons] at hlast
    by_cases hdisturbs : s.Disturbs i
    · obtain ⟨hhead, j, hj, hhalf⟩ := hdisturbs
      obtain ⟨next, steps, htodo, hnext⟩ := step_cases hs'
      simp only [htodo, List.head?_cons, List.mem_cons, Option.some.injEq, List.not_mem_nil,
        or_false] at hhead
      rcases hhead with rfl | rfl
      · -- whatever the tangled writers do next, the last moment is spoilt
        cases hnext
        obtain ⟨n, htangled⟩ := hs.tangles htodo hj hhalf
        have hmoments := forall_of_play (P := (Tangled · n)) (fun _ _ _ h => h.step) htangled hplay
        have hmem := List.mem_of_getLast? hlast
        exact ⟨last, List.mem_cons_of_mem s hmem, (hmoments last hmem).spoilt hdone⟩
      · cases hnext
        exact ⟨_, List.mem_cons_of_mem s List.mem_cons_self, hs.spoils hhalf⟩
    · simp only [orderly, hs', hdisturbs, decide_false, Bool.not_false, Bool.true_and,
        Option.all_some] at hdisorderly
      obtain ⟨m, hm, hspoilt⟩ := ih (hs.step hs' hdisturbs) hplay hlast hdisorderly
      exact ⟨m, List.mem_cons_of_mem s hm, hspoilt⟩

/-! ## What is shown -/

/-- Whether the target holds what it held at first, or the whole content of a writer. -/
def ShowsWhole (s : Contest) (c : Writer → ByteArray) (original : Option ByteArray) : Prop :=
  s.shown c original = original ∨ ∃ i, s.shown c original = some (c i)

theorem shown_of_target (htarget : s.target = some n) (c : Writer → ByteArray)
    (original : Option ByteArray) : s.shown c original = some (bytes c (s.written n)) := by
  rw [shown, htarget]

theorem bytes_singleton (c : Writer → ByteArray) (i : Writer) : bytes c [i] = c i := by
  have hnothing : ByteArray.empty.extract (c i).size ByteArray.empty.size = .empty := by
    apply ByteArray.ext
    simp
  rw [bytes, bytes, hnothing, ByteArray.append_empty]

theorem Tidy.showsWhole (h : Tidy s) (c : Writer → ByteArray) (original : Option ByteArray) :
    s.ShowsWhole c original := by
  cases htarget : s.target with
  | none => exact .inl (by rw [shown, htarget])
  | some n =>
    obtain ⟨i, hi⟩ := h.target n htarget
    exact .inr ⟨i, by rw [shown_of_target htarget, hi, bytes_singleton]⟩

theorem Spoilt.exists_not_showsWhole (h : s.Spoilt) : ∃ c original, ¬s.ShowsWhole c original := by
  obtain ⟨n, htarget, hempty | ⟨i, j, hij, hwritten⟩⟩ := h
  · refine ⟨fun _ => ⟨#[1]⟩, none, ?_⟩
    rw [ShowsWhole, shown_of_target htarget, hempty]
    rintro (h | ⟨k, h⟩)
    · cases h
    · exact absurd (Option.some.inj h) (by decide)
  · -- the later content is shorter
    refine ⟨fun k => if k = i then ⟨#[1]⟩ else ⟨#[2, 3]⟩, none, ?_⟩
    rw [ShowsWhole, shown_of_target htarget, hwritten]
    rintro (h | ⟨k, h⟩)
    · cases h
    · have h := Option.some.inj h
      revert h
      cases i <;> cases j <;> first | exact absurd rfl hij | (cases k <;> decide)

/-- At every moment of a schedule that goes to the end the target shows whole contents, whatever
they are, exactly when no writer opens or renames while the other one is half-written. -/
theorem shows_whole_iff {last : Contest} (hplay : start.play schedule = some moments)
    (hlast : moments.getLast? = some last) (hdone : ∀ i, last.todo i = []) :
    (∀ s ∈ moments, ∀ c original, s.ShowsWhole c original) ↔
      start.orderly schedule = true := by
  constructor
  · intro hwhole
    refine Bool.ne_false_iff.mp fun hdisorderly => ?_
    obtain ⟨m, hm, hspoilt⟩ :=
      tidy_start.spoilt_of_not_orderly hplay hlast hdone hdisorderly
    obtain ⟨c, original, hnot⟩ := hspoilt.exists_not_showsWhole
    exact hnot (hwhole m hm c original)
  · intro horderly s hs
    exact (tidy_start.of_orderly hplay horderly s hs).showsWhole

/-- Both writers have written before one of them renames, and the second one has opened the file
only after the first one wrote it: its own rename finds nothing, and no moment shows a part. -/
theorem shows_whole_iff_overlapping :
    ∃ moments, start.play (.replicate 6 .first ++ .replicate 6 .second ++ [.first, .second]) =
        some moments ∧
      ∀ s ∈ moments, ∀ c original, s.ShowsWhole c original :=
  let schedule : List Writer := .replicate 6 .first ++ .replicate 6 .second ++ [.first, .second]
  have horderly : start.orderly schedule = true := by decide
  ⟨_, rfl, (@shows_whole_iff schedule _ _ rfl rfl fun i => by cases i <;> rfl).mpr horderly⟩

/-- The moment on a schedule, where it can be computed, at which the target holds a content. -/
theorem exists_shown_of_any [DecidableEq ByteArray] (schedule : List Writer)
    (c : Writer → ByteArray) (original : Option ByteArray) (content : ByteArray)
    (h : (start.play schedule).any (fun moments =>
      moments.any fun s => decide (s.shown c original = some content)) = true) :
    ∃ moments, start.play schedule = some moments ∧
      ∃ s ∈ moments, s.shown c original = some content := by
  cases hplay : start.play schedule with
  | none =>
    rw [hplay] at h
    cases h
  | some moments =>
    rw [hplay, Option.any_some, List.any_eq_true] at h
    obtain ⟨s, hs, hshown⟩ := h
    exact ⟨moments, rfl, s, hs, of_decide_eq_true hshown⟩

/-- The first writer is longer. It opens, writes and is about to rename when the second one opens, and
then the target is empty; or both open before the first one writes and renames, and the second one
writes over what has become the target. No lock makes either schedule wait. -/
theorem shows_in_part :
    let c : Writer → ByteArray := fun
      | .first => "long".toUTF8
      | .second => "ab".toUTF8
    (∃ moments, start.play (.replicate 6 .first ++ .replicate 2 .second ++ [.first] ++
        .replicate 5 .second) = some moments ∧
      ∃ s ∈ moments, s.shown c (some "old".toUTF8) = some .empty ∧
        ¬s.ShowsWhole c (some "old".toUTF8)) ∧
    ∃ moments, start.play (.replicate 2 .first ++ .replicate 2 .second ++ .replicate 5 .first ++
        .replicate 5 .second) = some moments ∧
      ∃ s ∈ moments, s.shown c (some "old".toUTF8) = some "abng".toUTF8 ∧
        ¬s.ShowsWhole c (some "old".toUTF8) := by
  intro c
  have hpart {s : Contest} {content : ByteArray}
      (hshown : s.shown c (some "old".toUTF8) = some content)
      (hother : content ≠ "old".toUTF8 ∧ content ≠ "long".toUTF8 ∧ content ≠ "ab".toUTF8) :
      ¬s.ShowsWhole c (some "old".toUTF8) := by
    rw [ShowsWhole, hshown]
    rintro (h | ⟨i, h⟩)
    · exact hother.1 (Option.some.inj h)
    · cases i with
      | first => exact hother.2.1 (Option.some.inj h)
      | second => exact hother.2.2 (Option.some.inj h)
  constructor
  · obtain ⟨moments, hplay, s, hs, hshown⟩ := exists_shown_of_any
      (.replicate 6 .first ++ .replicate 2 .second ++ [.first] ++ .replicate 5 .second) c
      (some "old".toUTF8) .empty (by decide +kernel)
    exact ⟨moments, hplay, s, hs, hshown, hpart hshown (by decide +kernel)⟩
  · obtain ⟨moments, hplay, s, hs, hshown⟩ := exists_shown_of_any
      (.replicate 2 .first ++ .replicate 2 .second ++ .replicate 5 .first ++
        .replicate 5 .second) c
      (some "old".toUTF8) "abng".toUTF8 (by decide +kernel)
    exact ⟨moments, hplay, s, hs, hshown, hpart hshown (by decide +kernel)⟩

/-! ## One writer alone -/

theorem play_alone (c : Writer → ByteArray) (original : Option ByteArray) :
    ∃ moments, start.play (.replicate 7 .first) = some moments ∧
      moments.map (fun s => (s.standing c, s.shown c original)) =
        [(none, original), (none, original), (some .empty, original), (some .empty, original),
          (some (c .first), original), (some (c .first), original), (some (c .first), original),
          (none, some (c .first))] := by
  refine ⟨_, rfl, ?_⟩
  rw [← bytes_singleton c .first]
  rfl

end Contest

namespace FileSystem

/-- What the file at a location holds. -/
def held? (fs : FileSystem) (l : Location) : Option ByteArray :=
  match fs.get? l with
  | some (.file content _) => some content
  | _ => none

variable {fs : FileSystem} {p : Path} {process : Nat} {l : Location} {states : List FileSystem}

/-- A writer that is alone finds under both names, at every moment, what a replacement of the file
leaves there. -/
theorem Replaceable.run_eq_play (h : Replaceable fs p process l) {content : ByteArray}
    (hrun : AtomicWrite.run ⟨p, content, process⟩ none fs = (states, none))
    {c : Writer → ByteArray} (hc : c .first = content) :
    ∃ k moments, Contest.start.play (.replicate 7 .first) = some moments ∧
      states.reverse.map (fun fs' => (fs'.held? k, fs'.held? l)) =
        moments.map fun s => (s.standing c, s.shown c (fs.held? l)) := by
  rcases h.run_cases content with ⟨more, failure, hrefused⟩ | ⟨k, opened, written, after, hnone, hdone,
    hopened, hwritten, hafter⟩
  · cases hrun.symm.trans hrefused
  · obtain ⟨rfl, -⟩ := Prod.mk.inj (hrun.symm.trans hdone)
    have hlk : l ≠ k := by
      rintro rfl
      obtain ⟨e, he, -⟩ := h.ends.entry
      cases hnone.symm.trans he
    obtain ⟨moments, hplay, hmoments⟩ := Contest.play_alone c (fs.held? l)
    refine ⟨k, moments, hplay, ?_⟩
    rw [hmoments, hc]
    simp [held?, hopened.get?, hwritten.get?, hafter.get?, hnone, hlk, Ne.symm hlk]

end FileSystem

end ExtensionAudit
