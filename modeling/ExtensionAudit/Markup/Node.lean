import ExtensionAudit.Text.Search
/-
  The template tree. An element without its children is an `Element`; a node is
  an element with its children or a piece of text. Every node keeps the source
  text it needs to print itself back.
-/

namespace ExtensionAudit.Markup

inductive Quote where
  | none | single | double
  deriving DecidableEq, Repr

def Quote.mark : Quote → Text
  | .none => []
  | .single => ['\'']
  | .double => ['"']

/-- A named attribute. The separator (an `=` and the blanks around it) and the quotation marks
are printed only when there is a value. -/
structure NamedAttribute where
  leading : Text
  name : Text
  separator : Text
  value : Option Text
  quote : Quote
  deriving DecidableEq, Repr

/-- One piece of a start tag: an attribute, or text kept verbatim (a Twig construct or a bare
quoted string). -/
inductive Attribute where
  | named (a : NamedAttribute)
  | verbatim (leading text : Text)
  deriving DecidableEq, Repr

namespace Attribute

def leading : Attribute → Text
  | .verbatim leading _ => leading
  | .named a => a.leading

/-- The attribute as it is written behind the blanks. -/
def body : Attribute → Text
  | .verbatim _ text => text
  | .named a =>
    match a.value with
    | some value => a.name ++ a.separator ++ a.quote.mark ++ value ++ a.quote.mark
    | none => a.name

/-- The attribute as it is written, blanks in front included. -/
def render (a : Attribute) : Text := a.leading ++ a.body

/-- A new attribute behind a single blank; a value is put in double quotes. -/
def fresh (name : Text) (value : Option Text) : Attribute :=
  if value.isSome then .named ⟨[' '], name, ['='], value, .double⟩
  else .named ⟨[' '], name, [], none, .none⟩

def isNamed (name : Text) : Attribute → Bool
  | .named a => a.name == name
  | .verbatim _ _ => false

end Attribute

/-- A start tag. `tail` is the text from the last attribute to the end of the tag. -/
structure StartTag where
  tag : Text
  attributes : List Attribute
  tail : Text
  deriving DecidableEq, Repr

def StartTag.render (t : StartTag) : Text :=
  '<' :: t.tag ++ t.attributes.flatMap Attribute.render ++ t.tail

/-- How an element ends. -/
inductive Closing where
  | explicit (name trailing : Text)
  | selfClosing
  | void
  | unclosed
  deriving DecidableEq, Repr

/-- The end tag as it is written, nothing where there is none. -/
def Closing.render : Closing → Text
  | .explicit name trailing => '<' :: '/' :: name ++ trailing ++ ['>']
  | _ => []

/-- An element without its children; `line` is the line of its `<`, counted from one. -/
structure Element extends StartTag where
  line : Nat
  closing : Closing
  deriving DecidableEq, Repr

/-- A node of the tree; a text node holds the line it starts on. -/
inductive Node where
  | text (content : Text) (line : Nat)
  | element (e : Element) (children : List Node)
  deriving Repr

namespace Node

mutual

def render : Node → Text
  | .text content _ => content
  | .element e children => e.toStartTag.render ++ renderAll children ++ e.closing.render

/-- The nodes as they are written, one after another. -/
def renderAll : List Node → Text
  | [] => []
  | n :: ns => n.render ++ renderAll ns

end

mutual

/-- The elements of a node in document order, parents before their children. -/
def elements : Node → List Element
  | .text _ _ => []
  | .element e children => e :: elementsAll children

/-- The elements of all nodes in document order. -/
def elementsAll : List Node → List Element
  | [] => []
  | n :: ns => n.elements ++ elementsAll ns

end

mutual

/-- Changes every element of a node, keeping the shape of the tree. -/
def mapElements (f : Element → Element) : Node → Node
  | .text content line => .text content line
  | .element e children => .element (f e) (mapElementsAll f children)

/-- Changes every element of all nodes. -/
def mapElementsAll (f : Element → Element) : List Node → List Node
  | [] => []
  | n :: ns => n.mapElements f :: mapElementsAll f ns

end

mutual

/-- Changes the element at a position in document order; the number left over counts the
elements still to pass when the node holds too few. -/
def modifyElement (f : Element → Element) : Node → Nat → Node × Option Nat
  | .text content line, i => (.text content line, some i)
  | .element e children, 0 => (.element (f e) children, none)
  | .element e children, i + 1 =>
    let (children, left) := modifyElementAll f children i
    (.element e children, left)

/-- Changes the element at a position in document order among all nodes. -/
def modifyElementAll (f : Element → Element) : List Node → Nat → List Node × Option Nat
  | [], i => ([], some i)
  | n :: ns, i =>
    match n.modifyElement f i with
    | (n, none) => (n :: ns, none)
    | (n, some left) =>
      let (ns, left) := modifyElementAll f ns left
      (n :: ns, left)

end

def line : Node → Nat
  | .text _ line => line
  | .element e _ => e.line

end Node

mutual

theorem Node.elements_mapElements (f : Element → Element) (n : Node) :
    (n.mapElements f).elements = n.elements.map f := by
  cases n with
  | text => simp [Node.mapElements, Node.elements]
  | element e children =>
    simp [Node.mapElements, Node.elements, Node.elementsAll_mapElementsAll f children]

theorem Node.elementsAll_mapElementsAll (f : Element → Element) (ns : List Node) :
    Node.elementsAll (Node.mapElementsAll f ns) = (Node.elementsAll ns).map f := by
  cases ns with
  | nil => simp [Node.mapElementsAll, Node.elementsAll]
  | cons n ns =>
    simp [Node.mapElementsAll, Node.elementsAll, Node.elements_mapElements f n,
      Node.elementsAll_mapElementsAll f ns]

end

theorem Node.renderAll_append (ms ns : List Node) :
    Node.renderAll (ms ++ ns) = Node.renderAll ms ++ Node.renderAll ns := by
  induction ms with
  | nil => simp [Node.renderAll]
  | cons m ms ih => simp [Node.renderAll, ih]

end ExtensionAudit.Markup
