import ExtensionAudit.Failure
import ExtensionAudit.Report
import ExtensionAudit.Markup.Edit
/-
  Template migrations. A migration finds the constructs of a tree that it would
  change, and changes them. The built-in ones are renames: of an element, its
  end tag included, or of an attribute wherever it is carried.

  Main statements: `Rename.fix_changed_iff` (a rename changes something exactly
  when it finds something) and `Rename.fix_unchanged` (otherwise the tree stays).
-/

namespace ExtensionAudit

open Markup

/-- A change to templates. Its findings carry lines and no path; `cancels` says that visiting a
tree with it ends the run at the next point where the run can end. -/
structure Migration where
  id : String
  description : String
  check : List Node → List Finding
  fix : List Node → Except Failure (List Node × Bool)
  cancels : Bool

/-- A rename of elements or of attributes. -/
inductive Rename where
  | element (old new : Text)
  | attribute (old new : Text)
  deriving DecidableEq, Repr

namespace Rename

/-- The name that goes away. -/
def old : Rename → Text
  | .element old _ => old
  | .attribute old _ => old

/-- The name that takes its place. -/
def new : Rename → Text
  | .element _ new => new
  | .attribute _ new => new

def description : Rename → String
  | .element old new => "Replace " ++ String.ofList old ++ " with " ++ String.ofList new
  | .attribute old new =>
    "Rename attribute " ++ String.ofList old ++ " to " ++ String.ofList new

/-- What is said of an element that has the old name. -/
def advice : Rename → String
  | .element old new =>
    String.ofList old ++ " is removed, use " ++ String.ofList new ++ " instead."
  | .attribute old new =>
    String.ofList old ++ " is removed in Bootstrap 5, use " ++ String.ofList new ++ " instead."

def concerns : Rename → Element → Bool
  | .element old _, e => e.tag == old
  | .attribute old _, e => e.hasAttribute old

/-- The element after the rename. An attribute that already has the new name keeps its value,
and further attributes of the old name go away. -/
def apply : Rename → Element → Element
  | .element _ new, e => e.rename new
  | .attribute old new, e =>
    let e := if e.hasAttribute new then e else e.renameFirst old new
    e.removeAttribute old

def finding (r : Rename) (e : Element) : Finding :=
  (Finding.warning "" (String.ofList r.old) r.advice).atLine e.line

/-- One finding per element that the rename applies to, in document order. -/
def check (r : Rename) (nodes : List Node) : List Finding :=
  ((Node.elementsAll nodes).filter r.concerns).map r.finding

/-- The tree after the rename, and whether it changed. -/
def fix (r : Rename) (nodes : List Node) : List Node × Bool :=
  (Node.mapElementsAll (fun e => if r.concerns e then r.apply e else e) nodes,
    (Node.elementsAll nodes).any r.concerns)

/-- The rename as a migration, known by the old name. -/
def migration (r : Rename) : Migration where
  id := String.ofList r.old
  description := r.description
  check := r.check
  fix nodes := .ok (r.fix nodes)
  cancels := false

theorem fix_changed_iff (r : Rename) (nodes : List Node) :
    (r.fix nodes).2 = true ↔ r.check nodes ≠ [] := by
  simp [fix, check, List.filter_eq_nil_iff]

mutual

theorem mapElements_of_unconcerned {r : Rename} {f : Element → Element} (n : Node)
    (h : ∀ e ∈ n.elements, r.concerns e = false) :
    n.mapElements (fun e => if r.concerns e then f e else e) = n := by
  cases n with
  | text => rfl
  | element e children =>
    have he := h e (by simp [Node.elements])
    have hc := mapElementsAll_of_unconcerned (f := f) children
      fun c hc => h c (by simp [Node.elements, hc])
    simp [Node.mapElements, he, hc]

theorem mapElementsAll_of_unconcerned {r : Rename} {f : Element → Element} (ns : List Node)
    (h : ∀ e ∈ Node.elementsAll ns, r.concerns e = false) :
    Node.mapElementsAll (fun e => if r.concerns e then f e else e) ns = ns := by
  cases ns with
  | nil => rfl
  | cons n ns =>
    have hn := mapElements_of_unconcerned (f := f) n
      fun e he => h e (by simp [Node.elementsAll, he])
    have hns := mapElementsAll_of_unconcerned (f := f) ns
      fun e he => h e (by simp [Node.elementsAll, he])
    simp [Node.mapElementsAll, hn, hns]

end

theorem fix_unchanged {r : Rename} {nodes : List Node} (h : (r.fix nodes).2 = false) :
    (r.fix nodes).1 = nodes := by
  simp only [fix, List.any_eq_false, Bool.not_eq_true] at h
  exact mapElementsAll_of_unconcerned nodes h

end Rename

end ExtensionAudit
