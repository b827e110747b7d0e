import ExtensionAudit.Version.Basic
/-
  Version constraints as sets of versions: a constraint is a disjunction of
  groups, a group a conjunction of terms, and a term a range or an exclusion.
-/

namespace ExtensionAudit

/-- One end of a range. -/
inductive Bound where
  | unbounded
  | inclusive (v : Version)
  | exclusive (v : Version)
  deriving DecidableEq, Repr

/-- A condition on one version. -/
inductive Term where
  | range (lower upper : Bound)
  | excluded (v : Version)
  deriving DecidableEq, Repr

namespace Term

/-- Whether the version lies above the lower end of a range. -/
def above : Bound → Version → Bool
  | .unbounded, _ => true
  | .inclusive b, v => b ≤ v
  | .exclusive b, v => b < v

/-- Whether the version lies below the upper end of a range. -/
def below : Bound → Version → Bool
  | .unbounded, _ => true
  | .inclusive b, v => v ≤ b
  | .exclusive b, v => v < b

def admits : Term → Version → Bool
  | .range lower upper, v => above lower v && below upper v
  | .excluded b, v => ! decide (v.Same b)

/-- The lower end of the term, the least version when it has none. -/
def lowerBound : Term → Version
  | .range (.inclusive b) _ => b
  | .range (.exclusive b) _ => b
  | _ => .least

end Term

/-- A constraint on platform versions, with the text it was read from. -/
structure Constraint where
  groups : List (List Term)
  text : String
  deriving DecidableEq, Repr

namespace Constraint

def groupAdmits (group : List Term) (v : Version) : Bool := group.all (·.admits v)

def admits (c : Constraint) (v : Version) : Bool := c.groups.any (groupAdmits · v)

def groupLowerBound : List Term → Version
  | [] => .least
  | t :: ts => ts.foldl (fun v t => v.later t.lowerBound) t.lowerBound

/-- The least of the groups' lower ends. An exclusive end counts as the version itself. -/
def lowerBound (c : Constraint) : Version :=
  match c.groups.map groupLowerBound with
  | [] => .least
  | v :: vs => vs.foldl .earlier v

end Constraint

end ExtensionAudit
