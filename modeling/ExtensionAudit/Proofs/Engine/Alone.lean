import ExtensionAudit.Proofs.Engine.Ignores
/-
  An extension on its own. Validating a plugin is validating the scope that it is
  on its own, with the findings of its own rules in front; for a bundle this holds
  where sources are not checked.

  Main statement: `validateExtension_eq_validateScope`.
-/

namespace ExtensionAudit.Run

variable {e : Extension} {name : String} {c : Constraint} {w : World} {mode : Mode}

/-- Under a constraint that is known, a run that is never cancelled examines the directories of
the extension. -/
theorem runIn_validateExtension (s : Setup) (hconstraint : e.constraint = .ok c)
    (hcancel : w.cancellation = .never) :
    (validateExtension s e mode).runIn w =
      ((fun o : Outcome => (⟨kept e.config.ignores (e.findings w.fs ++ o.findings), o.fixed⟩ :
        Outcome)) <$> examine s e.path c c.lowerBound (decide (mode = .check ∧ e.kind = .plugin))
          e.sourceDirs (areas.map fun a => (a, e.templateDirs w.fs a.directory)) mode
          (.withIgnores [])).runIn w := by
  unfold validateExtension
  simp only [runIn_bind, runIn_checkpoint hcancel, runIn_get, hconstraint,
    Extension.validate_eq_addAll, examine_behind]

/-- The scope of an extension is its directories, under its own constraint and ignore rules. -/
theorem ofExtension_eq_ok (fs : FileSystem) (hname : e.name = .ok name)
    (hconstraint : e.constraint = .ok c) :
    Scope.ofExtension fs e =
      .ok ((Scope.start e.path c e.config.ignores false []).addExtension fs name e) := by
  unfold Scope.ofExtension
  rw [hconstraint, hname]
  rfl

/-- A plugin on its own, in either mode, or a bundle whose templates are changed, is validated as
the scope that it makes up: the run ends with the same failure, or with the same files rewritten
and the findings of that scope behind those of the extension's own rules. -/
theorem validateExtension_eq_validateScope (s : Setup) (hname : e.name = .ok name)
    (hconstraint : e.constraint = .ok c) (hmode : e.kind = .plugin ∨ mode = .fix)
    (hcancel : w.cancellation = .never) :
    ∃ scope, Scope.ofExtension w.fs e = .ok scope ∧
      (validateExtension s e mode).runIn w =
        let (result, after) := (validateScope s scope mode).runIn w
        (result.map fun o => ⟨kept e.config.ignores (e.findings w.fs) ++ o.findings, o.fixed⟩,
          after) := by
  refine ⟨_, ofExtension_eq_ok w.fs hname hconstraint, ?_⟩
  -- sources are checked under the same condition
  have hlint : decide (mode = .check ∧ e.kind = .plugin) = decide (mode = .check) := by
    rcases hmode with hplugin | rfl
    · simp [hplugin]
    · simp
  let scope := (Scope.start e.path c e.config.ignores false []).addExtension w.fs name e
  have htemplates : (areas.map fun a => (a, e.templateDirs w.fs a.directory)) =
      areas.map fun a => (a, scope.templateDirs a) := by
    simp [areas, Scope.templateDirs, scope, Scope.addExtension, Scope.start]
  have hscope : (validateScope s scope mode).runIn w =
      ((fun o : Outcome => (⟨kept e.config.ignores o.findings, o.fixed⟩ : Outcome)) <$>
        examine s e.path c c.lowerBound (decide (mode = .check)) e.sourceDirs
          (areas.map fun a => (a, scope.templateDirs a)) mode (.withIgnores [])).runIn w := by
    unfold validateScope
    rw [examine_behind]
    rfl
  rw [runIn_validateExtension s hconstraint hcancel, hlint, htemplates, hscope, runIn_map, runIn_map]
  simp only [kept_append]
  cases ((examine s e.path c c.lowerBound (decide (mode = .check)) e.sourceDirs
    (areas.map fun a => (a, scope.templateDirs a)) mode (.withIgnores [])).runIn w).1 <;> rfl

/-- A plugin with a template that has an attribute of before Bootstrap 5. -/
def demoPlugin : FileSystem where
  entries :=
    [(["demo".toList], .directory),
      (["demo".toList, "composer.json".toList],
        .file ("\x7b\"type\":\"onlishop-platform-plugin\"," ++
          "\"require\":\x7b\"onlishop/core\":\"~6.5.0\"\x7d," ++
          "\"extra\":\x7b\"onlishop-plugin-class\":\"Demo\"\x7d," ++
          "\"autoload\":\x7b\"psr-4\":\x7b\"Demo\":\"src/\"\x7d\x7d\x7d").toUTF8 false),
      (["demo".toList, "src".toList], .directory),
      (["demo".toList, "src".toList, "Resources".toList], .directory),
      (["demo".toList, "src".toList, "Resources".toList, "app".toList], .directory),
      (["demo".toList, "src".toList, "Resources".toList, "app".toList, "storefront".toList],
        .directory),
      (["demo".toList, "src".toList, "Resources".toList, "app".toList, "storefront".toList,
          "a.twig".toList], .file "<a data-toggle></a>".toUTF8 false)]
  workingDirectory := []

/-- A setup with one migration of storefront templates, for all versions. -/
def toggleSetup : Setup where
  registry := ⟨[⟨.storefront, ⟨[[.range .unbounded .unbounded]], "*"⟩,
    (Registry.bootstrapRename "toggle").migration⟩]⟩
  table := .static [("6.5.0.0", "8.1")]
  linter := ⟨fun _ _ _ => .ok [], false⟩
  process := .faultless 1

/-- The plugin as it is loaded is validated as the scope that it makes up. -/
theorem validateExtension_eq_validateScope_demo :
    ∃ e scope, Extension.discover demoPlugin (.ofString "/demo") = .ok e ∧ e.kind = .plugin ∧
      e.templateDirs demoPlugin "storefront" =
        [.ofString "/demo/src/Resources/app/storefront"] ∧
      Scope.ofExtension demoPlugin e = .ok scope ∧
      (validateExtension toggleSetup e .check).runIn ⟨demoPlugin, .never, []⟩ =
        let (result, after) := (validateScope toggleSetup scope .check).runIn ⟨demoPlugin, .never, []⟩
        (result.map fun o => ⟨kept e.config.ignores (e.findings demoPlugin) ++ o.findings, o.fixed⟩,
          after) := by
  obtain ⟨e, hload, he⟩ := exists_ok_of_any (x := Extension.discover demoPlugin (.ofString "/demo"))
    (p := fun e => decide (e.kind = .plugin ∧
      e.templateDirs demoPlugin "storefront" = [.ofString "/demo/src/Resources/app/storefront"] ∧
      e.name.toOption.isSome = true ∧ e.constraint.toOption.isSome = true)) (by decide +kernel)
  obtain ⟨hkind, hdirs, hname, hconstraint⟩ := of_decide_eq_true he
  obtain ⟨name, hname, -⟩ := exists_ok_of_any (p := fun _ => true) (by simpa using hname)
  obtain ⟨c, hconstraint, -⟩ := exists_ok_of_any (p := fun _ => true) (by simpa using hconstraint)
  have hmode : e.kind = .plugin ∨ Mode.check = .fix := .inl hkind
  obtain ⟨scope, hscope, hruns⟩ := validateExtension_eq_validateScope (w := ⟨demoPlugin, .never, []⟩)
    toggleSetup hname hconstraint hmode rfl
  exact ⟨e, scope, hload, hkind, hdirs, hscope, hruns⟩

end ExtensionAudit.Run
