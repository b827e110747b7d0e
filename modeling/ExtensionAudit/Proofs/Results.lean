/-
  Results of computations that may fail: when a computation that is made of others
  succeeds, and with what, and when it does not fail with a given error.

  Main statements: `bind_eq_ok`, `mapM_append_eq_ok_iff` and `exists_of_mapM_eq_ok`.
-/

namespace ExtensionAudit

variable {ε ε' α β : Type}

/-- A result with a property, where the property can be computed. -/
theorem exists_ok_of_any {x : Except ε α} {p : α → Bool}
    (h : x.toOption.any p = true) : ∃ a, x = .ok a ∧ p a = true := by
  cases x with
  | error e => cases h
  | ok a => exact ⟨a, rfl, h⟩

/-- A failure with a property, where the property can be computed. -/
theorem exists_error_of_any {x : Except ε α} {p : ε → Bool}
    (h : (match x with | .error e => p e | .ok _ => false) = true) :
    ∃ e, x = .error e ∧ p e = true := by
  cases x with
  | error e => exact ⟨e, rfl, h⟩
  | ok a => cases h

/-! ## Success -/

/-- Two computations succeed when the first one does, and the second one on its result. -/
theorem bind_eq_ok {x : Except ε α} {f : α → Except ε β} {b : β} :
    (x >>= f) = .ok b ↔ ∃ a, x = .ok a ∧ f a = .ok b := by
  cases x with
  | error e => exact ⟨nofun, nofun⟩
  | ok a =>
    constructor
    · exact fun h => ⟨a, rfl, h⟩
    · rintro ⟨_, ⟨⟩, h⟩
      exact h

theorem ok_bind (a : α) (f : α → Except ε β) : (Except.ok a >>= f) = f a := rfl

theorem pure_eq_ok {a b : α} : (pure a : Except ε α) = .ok b ↔ b = a := by
  simp [pure, Except.pure, eq_comm]

theorem exists_of_map_eq_ok {x : Except ε α} {f : α → β} {b : β} (h : x.map f = .ok b) :
    ∃ a, x = .ok a ∧ f a = b := by
  cases x with
  | error e => cases h
  | ok a => exact ⟨a, rfl, by simpa [Except.map] using h⟩

theorem mapError_ok (g : ε → ε') (a : α) : (Except.ok a : Except ε α).mapError g = .ok a := rfl

theorem mapError_error (g : ε → ε') (e : ε) :
    (Except.error e : Except ε α).mapError g = .error (g e) := rfl

theorem mapError_eq_ok {x : Except ε α} {g : ε → ε'} {a : α} :
    x.mapError g = .ok a ↔ x = .ok a := by
  cases x with
  | error e => simp [mapError_error]
  | ok b => simp [mapError_ok]

/-! ## Failure -/

section Errors

variable {e : ε}

theorem map_eq_error_iff {x : Except ε α} {f : α → β} : x.map f = .error e ↔ x = .error e := by
  cases x <;> simp [Except.map]

theorem map_ne_error {x : Except ε α} {f : α → β} (h : x ≠ .error e) : x.map f ≠ .error e :=
  fun heq => h (map_eq_error_iff.mp heq)

theorem mapError_ne_error {x : Except ε' α} {g : ε' → ε} (h : ∀ e', g e' ≠ e) :
    x.mapError g ≠ .error e := by
  cases x with
  | error e' => exact fun heq => h e' (Except.error.inj heq)
  | ok a => exact nofun

theorem bind_ne_error {x : Except ε α} {f : α → Except ε β} (h : x ≠ .error e)
    (hf : ∀ a, f a ≠ .error e) : (x >>= f) ≠ .error e := by
  cases x with
  | error e' => exact fun heq => h (congrArg Except.error (Except.error.inj heq))
  | ok a => exact hf a

end Errors

/-! ## Sequences -/

section Sequence

variable {read : α → Except ε β}

theorem mapM_cons_eq_ok_iff {a : α} {as : List α} {bs : List β} :
    (a :: as).mapM read = .ok bs ↔
      ∃ b bs', read a = .ok b ∧ as.mapM read = .ok bs' ∧ bs = b :: bs' := by
  rw [List.mapM_cons]
  simp only [bind_eq_ok, pure_eq_ok, exists_and_left]

theorem mapM_append_eq_ok_iff {as as' : List α} {bs : List β} :
    (as ++ as').mapM read = .ok bs ↔
      ∃ front back, as.mapM read = .ok front ∧ as'.mapM read = .ok back ∧ bs = front ++ back := by
  rw [List.mapM_append]
  simp only [bind_eq_ok, pure_eq_ok, exists_and_left]

/-- What a sequence of readings reads, each of them reads. -/
theorem exists_of_mapM_eq_ok {as : List α} {bs : List β} (h : as.mapM read = .ok bs) :
    (∀ a ∈ as, ∃ b ∈ bs, read a = .ok b) ∧ ∀ b ∈ bs, ∃ a ∈ as, read a = .ok b := by
  induction as generalizing bs with
  | nil =>
    cases h
    simp
  | cons a as ih =>
    obtain ⟨b, bs, hb, has, rfl⟩ := mapM_cons_eq_ok_iff.mp h
    obtain ⟨hall, honly⟩ := ih has
    constructor
    · refine List.forall_mem_cons.mpr ⟨⟨b, List.mem_cons_self, hb⟩, fun a' ha' => ?_⟩
      obtain ⟨b', hb', hread⟩ := hall a' ha'
      exact ⟨b', List.mem_cons_of_mem _ hb', hread⟩
    · refine List.forall_mem_cons.mpr ⟨⟨a, List.mem_cons_self, hb⟩, fun b' hb' => ?_⟩
      obtain ⟨a', ha', hread⟩ := honly b' hb'
      exact ⟨a', List.mem_cons_of_mem _ ha', hread⟩

end Sequence

end ExtensionAudit
