import ExtensionAudit.Markup.Document
/-
  Edits of one element: renaming it together with its end tag, and reading,
  setting and removing named attributes.
-/

namespace ExtensionAudit.Markup

namespace Element

def rename (e : Element) (tag : Text) : Element :=
  { e with
    tag := tag
    closing := match e.closing with
      | .explicit _ trailing => .explicit tag trailing
      | other => other }

def isSelfClosing (e : Element) : Bool := e.closing = .selfClosing

def attribute? (e : Element) (name : Text) : Option NamedAttribute :=
  e.attributes.findSome? fun
    | .named a => if a.name == name then some a else none
    | .verbatim _ _ => none

def hasAttribute (e : Element) (name : Text) : Bool := e.attributes.any (·.isNamed name)

def mapFirst (name : Text) (f : NamedAttribute → NamedAttribute) : List Attribute → List Attribute
  | [] => []
  | .named a :: rest =>
    if a.name == name then .named (f a) :: rest else .named a :: mapFirst name f rest
  | .verbatim leading text :: rest => .verbatim leading text :: mapFirst name f rest

theorem mapFirst_append_cons {name : Text} {f : NamedAttribute → NamedAttribute}
    {as : List Attribute} (has : ∀ b ∈ as, b.isNamed name = false) {a : NamedAttribute}
    (ha : a.name = name) (bs : List Attribute) :
    mapFirst name f (as ++ .named a :: bs) = as ++ .named (f a) :: bs := by
  induction as with
  | nil => simp [mapFirst, ha]
  | cons b as ih =>
    obtain ⟨hb, hrest⟩ := List.forall_mem_cons.mp has
    cases b with
    | verbatim => simp [mapFirst, ih hrest]
    | named b =>
      have hb : (b.name == name) = false := hb
      simp [mapFirst, hb, ih hrest]

/-- Gives the attribute `name` a value or takes it away. A new value is put in double quotes
where none stood before; an attribute that is missing is added at the end. -/
def setAttribute (e : Element) (name : Text) (value : Option Text) : Element :=
  if e.hasAttribute name then
    { e with attributes := mapFirst name (fun a =>
        if a.value.isNone && value.isSome then
          { a with value := value, separator := ['='], quote := .double }
        else { a with value := value }) e.attributes }
  else { e with attributes := e.attributes ++ [.fresh name value] }

def removeAttribute (e : Element) (name : Text) : Element :=
  { e with attributes := e.attributes.filter (! ·.isNamed name) }

/-- Gives the first attribute called `old` the name `new`. -/
def renameFirst (e : Element) (old new : Text) : Element :=
  { e with attributes := mapFirst old (fun a => { a with name := new }) e.attributes }

end Element

end ExtensionAudit.Markup
