import ExtensionAudit.Proofs.Engine.Reporting
/-
  Ignore rules and runs. The rules go with the report through the whole run, and
  nothing that is done on the way depends on them: what a run reads, writes and asks
  the linter is the same under any rules, and so is the failure it ends with.

  Main statement: `validate_withIgnores`, a run under ignore rules is the run
  without any, less the findings that a rule covers.
-/

namespace ExtensionAudit

/-- A rule covers the findings of its identifier, and of its path and message where those are
given. -/
structure IgnoreRule.Covers (r : IgnoreRule) (f : Finding) : Prop where
  identifier : r.identifier = f.identifier
  path : ∀ p ∈ r.path, p = f.path
  message : ∀ m ∈ r.message, m = f.message

theorem IgnoreRule.matches_iff {r : IgnoreRule} {f : Finding} :
    r.matches f = true ↔ r.Covers f := by
  have hall (o : Option String) (s : String) : o.all (· == s) = true ↔ ∀ t ∈ o, t = s := by
    cases o <;> simp
  unfold IgnoreRule.matches
  rw [Bool.and_eq_true, Bool.and_eq_true, hall, hall, beq_iff_eq]
  exact ⟨fun ⟨⟨hi, hp⟩, hm⟩ => ⟨hi, hp, hm⟩, fun ⟨hi, hp, hm⟩ => ⟨⟨hi, hp⟩, hm⟩⟩

instance (r : IgnoreRule) (f : Finding) : Decidable (r.Covers f) :=
  decidable_of_iff _ IgnoreRule.matches_iff

/-- The outcome without the findings that a rule covers. -/
def Outcome.without (ignores : List IgnoreRule) (o : Outcome) : Outcome :=
  { o with findings := o.findings.filter fun f => ∀ r ∈ ignores, ¬ r.Covers f }

/-- The package with other ignore rules. -/
def Package.withIgnores (ignores : List IgnoreRule) (p : Package) : Package :=
  { p with config := { p.config with ignores := ignores } }

namespace Extension

def withIgnores (ignores : List IgnoreRule) : Extension → Extension
  | .bundle p name => .bundle (p.withIgnores ignores) name
  | .plugin p => .plugin (p.withIgnores ignores)

variable (ignores : List IgnoreRule) (e : Extension)

@[simp] theorem withIgnores_ignores : (e.withIgnores ignores).config.ignores = ignores := by
  cases e <;> rfl

@[simp] theorem withIgnores_constraint : (e.withIgnores ignores).constraint = e.constraint := by
  cases e <;> rfl

@[simp] theorem withIgnores_kind : (e.withIgnores ignores).kind = e.kind := by
  cases e <;> rfl

@[simp] theorem withIgnores_path : (e.withIgnores ignores).path = e.path := by
  cases e <;> rfl

@[simp] theorem withIgnores_sourceDirs : (e.withIgnores ignores).sourceDirs = e.sourceDirs := by
  cases e <;> rfl

@[simp] theorem withIgnores_templateDirs (fs : FileSystem) (a : String) :
    (e.withIgnores ignores).templateDirs fs a = e.templateDirs fs a := by
  cases e <;> rfl

@[simp] theorem withIgnores_findings (fs : FileSystem) :
    (e.withIgnores ignores).findings fs = e.findings fs := by
  cases e <;> rfl

end Extension

namespace Run

theorem kept_eq_filter (ignores : List IgnoreRule) (found : List Finding) :
    kept ignores found = found.filter fun f => ∀ r ∈ ignores, ¬ r.Covers f := by
  rw [kept, Report.addAll_findings]
  refine (List.nil_append _).trans (List.filter_congr fun f _ => ?_)
  rw [Bool.eq_iff_iff]
  simp [Report.ignored, Report.withIgnores, IgnoreRule.matches_iff]

theorem kept_nil (found : List Finding) : kept [] found = found := by
  rw [kept_eq_filter]
  simp

theorem kept_append (ignores : List IgnoreRule) (found more : List Finding) :
    kept ignores (found ++ more) = kept ignores found ++ kept ignores more := by
  rw [kept_eq_filter, kept_eq_filter, kept_eq_filter, List.filter_append]

theorem kept_singleton (ignores : List IgnoreRule) (f : Finding) :
    kept ignores [f] = if ∃ r ∈ ignores, r.Covers f then [] else [f] := by
  rw [kept_eq_filter, List.filter_cons, List.filter_nil]
  by_cases h : ∃ r ∈ ignores, r.Covers f
  · rw [if_pos h, if_neg (by simpa using h)]
  · rw [if_neg h, if_pos (by simpa using h)]

/-- Leaving findings out of an outcome, before or after the report kept them all. -/
theorem without_kept (ignores : List IgnoreRule) (found : List Finding) (fixed : List Path) :
    (Outcome.mk (kept [] found) fixed).without ignores = ⟨kept ignores found, fixed⟩ := by
  rw [kept_nil, kept_eq_filter, Outcome.without]

/-- What is examined goes into the report behind what was found before, and through its rules. -/
theorem examine_behind (s : Setup) (root : Path) (c : Constraint) (v : Version) (lint : Bool)
    (sources : List Path) (templates : List (Area × List Path)) (mode : Mode)
    (ignores : List IgnoreRule) (found : List Finding) :
    examine s root c v lint sources templates mode ((Report.withIgnores ignores).addAll found) =
      (fun o => ⟨kept ignores (found ++ o.findings), o.fixed⟩) <$>
        examine s root c v lint sources templates mode (.withIgnores []) := by
  rw [examine_eq]
  refine congrArg (· <$> _) (funext fun o => ?_)
  rw [Outcome.under, kept, Report.addAll_append]

theorem validateExtension_withIgnores (s : Setup) (mode : Mode) (ignores : List IgnoreRule)
    (e : Extension) :
    validateExtension s (e.withIgnores ignores) mode =
      Outcome.without ignores <$> validateExtension s (e.withIgnores []) mode := by
  unfold validateExtension
  simp only [Extension.withIgnores_constraint, Extension.withIgnores_findings,
    Extension.withIgnores_kind, Extension.withIgnores_templateDirs, Extension.withIgnores_path,
    Extension.withIgnores_sourceDirs, Extension.withIgnores_ignores, Extension.validate_eq_addAll,
    map_bind]
  cases e.constraint with
  | error failure =>
    have hadd (ignores : List IgnoreRule) (found : List Finding) (f : Finding) :
        (((Report.withIgnores ignores).addAll found).add f).findings =
          kept ignores (found ++ [f]) := by
      rw [kept, Report.addAll_append]
      rfl
    simp only [hadd, map_pure, without_kept]
  | ok c => simp only [examine_behind, Functor.map_map, without_kept]

theorem validateScope_withIgnores (s : Setup) (mode : Mode) (ignores : List IgnoreRule)
    (scope : Scope) :
    validateScope s { scope with ignores := ignores } mode =
      Outcome.without ignores <$> validateScope s { scope with ignores := [] } mode := by
  unfold validateScope
  simp only [examine_behind, Functor.map_map, without_kept]
  rfl

/-- Ignore rules only filter: under any of them a run ends with the same failure, or with the
same files fixed and the findings that no rule covers, and it leaves the same world behind. -/
theorem validate_withIgnores (s : Setup) (mode : Mode) (ignores : List IgnoreRule) (w : World) :
    (∀ e : Extension,
      (validateExtension s (e.withIgnores ignores) mode).runIn w =
        let (result, after) := (validateExtension s (e.withIgnores []) mode).runIn w
        (result.map (·.without ignores), after)) ∧
    (∀ scope : Scope,
      (validateScope s { scope with ignores := ignores } mode).runIn w =
        let (result, after) := (validateScope s { scope with ignores := [] } mode).runIn w
        (result.map (·.without ignores), after)) := by
  constructor
  · intro e
    rw [validateExtension_withIgnores, runIn_map]
  · intro scope
    rw [validateScope_withIgnores, runIn_map]

end Run

end ExtensionAudit
