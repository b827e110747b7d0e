import ExtensionAudit.Migration.Basic
import ExtensionAudit.Text.Quoted
/-
  The registry of migrations: each is entered for an area of the templates and
  for the platform versions it applies to, and the order of entry is the order in
  which they run.
-/

namespace ExtensionAudit

/-- The part of a shop that a template belongs to. -/
inductive Area where
  | administration
  | storefront
  deriving DecidableEq, Repr

namespace Area

def directory : Area → String
  | .administration => "administration"
  | .storefront => "storefront"

/-- The name an entry shows for its area. -/
def label : Area → String
  | .administration => "Administration"
  | .storefront => "Storefront"

end Area

/-- A migration with the area and the versions it is for. -/
structure RegistryEntry where
  area : Area
  appliesTo : Constraint
  migration : Migration

namespace RegistryEntry

def supports (e : RegistryEntry) (v : Version) : Bool := e.appliesTo.admits v

def summary (e : RegistryEntry) : String :=
  "FixerEntry \x7b domain: " ++ e.area.label ++ ", applies_to: " ++ quoted e.appliesTo.text ++
    ", fixer: " ++ quoted e.migration.id ++ " \x7d"

end RegistryEntry

/-- Migrations in the order in which they run. -/
structure Registry where
  entries : List RegistryEntry

namespace Registry

/-- No migrations. -/
def empty : Registry := ⟨[]⟩

/-- Enters a migration last, for the versions that a constraint text admits. -/
def register (r : Registry) (area : Area) (appliesTo : String) (m : Migration) :
    Except Failure Registry :=
  (Constraint.read appliesTo).map fun c => ⟨r.entries ++ [⟨area, c, m⟩]⟩

def applicable (r : Registry) (area : Area) (v : Version) : List RegistryEntry :=
  r.entries.filter fun e => decide (e.area = area) && e.supports v

/-- The administration components that have a successor, with it. -/
def componentRenames : List (String × String) :=
  [("sw-skeleton-bar", "mt-skeleton-bar"),
    ("sw-loader", "mt-loader"),
    ("sw-progress-bar", "mt-progress-bar"),
    ("sw-external-link", "mt-external-link"),
    ("sw-colorpicker", "mt-colorpicker")]

/-- The data attributes that carry a namespace since Bootstrap 5. -/
def bootstrapAttributes : List String := ["toggle", "dismiss", "target"]

def bootstrapRename (name : String) : Rename :=
  .attribute ("data-" ++ name).toList ("data-bs-" ++ name).toList

/-- The versions with the new administration components. -/
def componentsSince : String := ">=6.7"

def bootstrapSince : String := ">=6.5"

def builtinRenames : List (Area × String × Rename) :=
  (componentRenames.map fun (old, new) =>
    (.administration, componentsSince, .element old.toList new.toList)) ++
  (bootstrapAttributes.map fun name => (.storefront, bootstrapSince, bootstrapRename name))

def builtin : Except Failure Registry :=
  builtinRenames.foldlM (fun r (area, versions, rename) =>
    r.register area versions rename.migration) empty

end Registry

end ExtensionAudit
