import ExtensionAudit.Engine.Validate
import ExtensionAudit.Proofs.Engine.Runs
import ExtensionAudit.Proofs.Version.AtLeast
/-
  Gating by version. Migrations are chosen at the lower bound of a constraint. One
  that is entered for a version and all later ones is chosen there only if it is
  for every version that the constraint admits, and a run is the same without
  those that are not.

  Main statement: `migrations_gated`.
-/

namespace ExtensionAudit

/-- Whether a migration was entered for a version and all later ones, by a text such as `>=6.5`. -/
def RegistryEntry.IsSince (e : RegistryEntry) : Prop :=
  ∃ text : String, Constraint.IsAtLeast text.toList ∧ Constraint.read text = .ok e.appliesTo

theorem RegistryEntry.IsSince.supports_of_le {e : RegistryEntry} (h : e.IsSince) {v w : Version}
    (hv : e.supports v = true) (hvw : v ≤ w) : e.supports w = true := by
  obtain ⟨text, hatLeast, hread⟩ := h
  have hparse : Constraint.parse text = .ok e.appliesTo := by
    unfold Constraint.read at hread
    cases hp : Constraint.parse text with
    | error fault =>
      rw [hp] at hread
      cases hread
    | ok c =>
      rw [hp] at hread
      cases hread
      rfl
  exact Constraint.admits_of_isAtLeast hatLeast hparse hv hvw

namespace Registry

/-- The entries that pass a test. -/
def restrict (r : Registry) (keep : RegistryEntry → Bool) : Registry :=
  ⟨r.entries.filter keep⟩

theorem supports_of_mem_applicable {r : Registry} {a : Area} {c : Constraint} {e : RegistryEntry}
    (he : e ∈ r.applicable a c.lowerBound) (hsince : e.IsSince) {v : Version}
    (hv : c.admits v = true) : e.supports v = true := by
  have hbound : e.supports c.lowerBound = true := by
    simp only [applicable, List.mem_filter, Bool.and_eq_true] at he
    exact he.2.2
  exact hsince.supports_of_le hbound (Constraint.lowerBound_le hv)

theorem applicable_restrict {r : Registry} {keep : RegistryEntry → Bool} {a : Area} {v : Version}
    (h : ∀ e ∈ r.applicable a v, keep e = true) :
    (r.restrict keep).applicable a v = r.applicable a v := by
  have hcomm : (r.restrict keep).applicable a v = (r.applicable a v).filter keep := by
    simp only [applicable, restrict, List.filter_filter, Bool.and_comm]
  rw [hcomm, List.filter_eq_self.mpr h]

end Registry

/-- The same run with fewer migrations. -/
def Setup.restrict (s : Setup) (keep : RegistryEntry → Bool) : Setup :=
  { s with registry := s.registry.restrict keep }

namespace Run

section Restriction

variable {s : Setup} {keep : RegistryEntry → Bool} {v : Version}
  (h : ∀ a, ∀ e ∈ s.registry.applicable a v, keep e = true)

include h

theorem migrate_restrict (root : Path) (a : Area) (files : List Path) (mode : Mode) :
    migrate (s.restrict keep) root a v files mode = migrate s root a v files mode := by
  unfold migrate
  rw [show (s.restrict keep).registry.applicable a v = s.registry.applicable a v from
    Registry.applicable_restrict (h a)]
  rfl

theorem migrateAreas_restrict (root : Path) (mode : Mode) (report : Report) (fixed : List Path)
    (templates : List (Area × List Path)) :
    migrateAreas (s.restrict keep) root v mode report fixed templates =
      migrateAreas s root v mode report fixed templates := by
  induction templates generalizing report fixed with
  | nil => rfl
  | cons t templates ih => simp only [migrateAreas, migrate_restrict h, ih]

theorem examine_restrict (root : Path) (c : Constraint) (lint : Bool) (sources : List Path)
    (templates : List (Area × List Path)) (mode : Mode) (report : Report) :
    examine (s.restrict keep) root c v lint sources templates mode report =
      examine s root c v lint sources templates mode report := by
  unfold examine
  simp only [migrateAreas_restrict h]
  rfl

end Restriction

theorem validateExtension_restrict {s : Setup} {keep : RegistryEntry → Bool} {c : Constraint}
    (h : ∀ a, ∀ e ∈ s.registry.applicable a c.lowerBound, keep e = true) {x : Extension}
    (hx : x.constraint = .ok c) (mode : Mode) :
    validateExtension (s.restrict keep) x mode = validateExtension s x mode := by
  unfold validateExtension
  simp only [hx, examine_restrict h]

theorem validateScope_restrict {s : Setup} {keep : RegistryEntry → Bool} {scope : Scope}
    (h : ∀ a, ∀ e ∈ s.registry.applicable a scope.platformVersion, keep e = true)
    (mode : Mode) : validateScope (s.restrict keep) scope mode = validateScope s scope mode := by
  unfold validateScope
  simp only [examine_restrict h]

/-- Gating at the lower bound of a constraint is safe. The constraint admits nothing below it, so
a migration for a version and all later ones that is chosen there is for every version that the
constraint admits; one that is not for all of them takes no part in a run. -/
theorem migrations_gated (c : Constraint) :
    (∀ v, c.admits v = true → c.lowerBound ≤ v) ∧
    (∀ (r : Registry) (a : Area), ∀ e ∈ r.applicable a c.lowerBound, e.IsSince →
      ∀ v, c.admits v = true → e.supports v = true) ∧
    (∀ (s : Setup) (keep : RegistryEntry → Bool),
      (∀ e ∈ s.registry.entries, keep e = false →
        e.IsSince ∧ ∃ v, c.admits v = true ∧ e.supports v = false) →
      (∀ (x : Extension) (mode : Mode), x.constraint = .ok c →
        validateExtension (s.restrict keep) x mode = validateExtension s x mode) ∧
      (∀ (scope : Scope) (mode : Mode), scope.constraint = c →
        validateScope (s.restrict keep) scope mode = validateScope s scope mode)) := by
  refine ⟨fun v => Constraint.lowerBound_le,
    fun r a e he hsince v => Registry.supports_of_mem_applicable he hsince, ?_⟩
  intro s keep hdrop
  have hkeep : ∀ a, ∀ e ∈ s.registry.applicable a c.lowerBound, keep e = true := by
    intro a e he
    cases hk : keep e with
    | true => rfl
    | false =>
      obtain ⟨hsince, v, hv, hnot⟩ := hdrop e (List.mem_filter.mp he).1 hk
      rw [Registry.supports_of_mem_applicable he hsince hv] at hnot
      cases hnot
  constructor
  · intro x mode hx
    exact validateExtension_restrict hkeep hx mode
  · intro scope mode hc
    subst hc
    exact validateScope_restrict hkeep mode

/-- A constraint around two releases: the attributes are for all that it admits, the components
are not, and a run is the same without them. -/
theorem migrations_gated_between_releases :
    ∃ c since67 since65, Constraint.parse "~6.5.3 || ^6.7,!=6.7.1" = .ok c ∧
      Constraint.read ">=6.7" = .ok since67 ∧ Constraint.read ">= 6.5" = .ok since65 ∧
      let early := Version.release 6 5 3 0
      let late := Version.release 6 7 2 0
      let components : RegistryEntry :=
        ⟨.administration, since67, (Rename.element "sw-loader".toList "mt-loader".toList).migration⟩
      let attributes : RegistryEntry :=
        ⟨.storefront, since65, (Registry.bootstrapRename "toggle").migration⟩
      let s : Setup := ⟨⟨[components, attributes]⟩, .static [], ⟨fun _ _ _ => .ok [], false⟩,
        .faultless 0⟩
      let scope := Scope.start (.ofString "/shop") c [] false []
      c.admits early = true ∧ c.admits late = true ∧ c.lowerBound ≤ late ∧
        attributes ∈ s.registry.applicable .storefront c.lowerBound ∧ attributes.IsSince ∧
        attributes.supports late = true ∧
        components.IsSince ∧ components.supports early = false ∧
        validateScope (s.restrict (·.area = .storefront)) scope .fix =
          validateScope s scope .fix ∧
        ∃ x : Extension, x.constraint = .ok c ∧
          validateExtension (s.restrict (·.area = .storefront)) x .fix =
            validateExtension s x .fix := by
  let bound := Version.ofParts [6, 5, 3] .dev 0
  -- what is needed of the three constraints is decided on what their texts are read as
  obtain ⟨c, hc, hcp⟩ := exists_ok_of_any
    (x := Constraint.parse "~6.5.3 || ^6.7,!=6.7.1")
    (p := fun c => c.admits (.release 6 5 3 0) && c.admits (.release 6 7 2 0) &&
      decide (c.lowerBound = bound)) (by decide +kernel)
  obtain ⟨since67, h67, h67p⟩ := exists_ok_of_any (x := Constraint.read ">=6.7")
    (p := fun c => !c.admits (.release 6 5 3 0)) (by decide +kernel)
  obtain ⟨since65, h65, h65p⟩ := exists_ok_of_any (x := Constraint.read ">= 6.5")
    (p := fun c => c.admits bound) (by decide +kernel)
  simp only [Bool.and_eq_true, decide_eq_true_eq, Bool.not_eq_true'] at hcp h67p
  obtain ⟨⟨hearly, hlate⟩, hbound⟩ := hcp
  obtain ⟨hlower, hsupports, hruns⟩ := migrations_gated c
  refine ⟨c, since67, since65, hc, h67, h65, ?_⟩
  intro early late components attributes s scope
  have happlicable : attributes ∈ s.registry.applicable .storefront c.lowerBound := by
    rw [hbound]
    exact List.mem_filter.mpr ⟨by simp [s], by simpa [attributes, RegistryEntry.supports] using h65p⟩
  have hattributes : attributes.IsSince :=
    ⟨">= 6.5", ⟨[], [' '], "6.5".toList, [], rfl, by simp [isBlank], by simp, by simp [isBlank]⟩,
      h65⟩
  have hcomponents : components.IsSince :=
    ⟨">=6.7", ⟨[], [], "6.7".toList, [], rfl, by simp, by simp, by simp [isBlank]⟩, h67⟩
  -- only the entry for components is left out, and the early release is one that it does not
  -- support
  have hdrop : ∀ e ∈ s.registry.entries, decide (e.area = .storefront) = false →
      e.IsSince ∧ ∃ v, c.admits v = true ∧ e.supports v = false := by
    intro e he hkeep
    simp only [s, List.mem_cons, List.not_mem_nil, or_false] at he
    rcases he with rfl | rfl
    · exact ⟨hcomponents, early, hearly, h67p⟩
    · cases hkeep
  obtain ⟨hextension, hscope⟩ := hruns s (·.area = .storefront) hdrop
  have hx : Extension.constraint (.plugin ⟨.ofString "/shop",
      ⟨"", "", "", "", none, [], [], [], .empty, .empty⟩,
      ⟨some "~6.5.3 || ^6.7,!=6.7.1", none, []⟩⟩) = .ok c := by
    show Constraint.read "~6.5.3 || ^6.7,!=6.7.1" = .ok c
    rw [Constraint.read, hc]
    rfl
  exact ⟨hearly, hlate, hlower late hlate, happlicable, hattributes,
    hsupports _ _ _ happlicable hattributes late hlate, hcomponents, h67p,
    hscope scope .fix rfl, _, hx, hextension _ .fix hx⟩

end Run

end ExtensionAudit
