import ExtensionAudit.Markup.Token
/-
  Templates as trees. The tokens of a source are put together from left to right:
  a start tag opens an element, an end tag closes the innermost open element of
  its name and every element opened since, and an end tag with no such element is
  text. Adjacent texts make one node. An element that nothing closes ends where
  its parent ends.
-/

namespace ExtensionAudit.Markup

/-- An element whose end has not been reached: its start tag, its line, and the finished nodes
in front of it in its parent, last first. -/
structure OpenElement where
  start : StartTag
  line : Nat
  before : List Node

/-- A tree under construction: the open elements, innermost first, the finished nodes of the
innermost one, last first, and the text collected since, last character first. `line` is the
line reached, `pendingLine` the line where the collected text starts. -/
structure Builder where
  stack : List OpenElement
  siblings : List Node
  pending : Text
  pendingLine : Nat
  line : Nat

namespace Builder

/-- Nothing read yet. -/
def empty : Builder := ⟨[], [], [], 1, 1⟩

/-- Collects text that starts on the line reached. -/
def addText (b : Builder) (content : Text) : Builder :=
  { b with
    pending := content.reverse ++ b.pending
    pendingLine := if b.pending.isEmpty then b.line else b.pendingLine }

/-- Makes a node of the collected text, if there is any. -/
def flush (b : Builder) : Builder :=
  if b.pending.isEmpty then b
  else { b with siblings := .text b.pending.reverse b.pendingLine :: b.siblings, pending := [] }

def add (b : Builder) (n : Node) : Builder := { b with siblings := n :: b.siblings }

/-- Ends the innermost open element. -/
def close (b : Builder) (closing : Closing) : Builder :=
  match b.stack with
  | [] => b
  | top :: stack =>
    { b with
      stack := stack
      siblings := .element ⟨top.start, top.line, closing⟩ b.siblings.reverse :: top.before }

/-- Ends the `n` innermost open elements without an end tag. -/
def closeUnclosed (b : Builder) : Nat → Builder
  | 0 => b
  | n + 1 => (b.close .unclosed).closeUnclosed n

/-- How many elements are open inside the innermost open one of this name. -/
def depthOf? (b : Builder) (name : Text) : Option Nat :=
  b.stack.findIdx? fun top => Text.sameIgnoringCase top.start.tag name

def rawChildren (content : Text) (line : Nat) : List Node :=
  if content.isEmpty then [] else [.text content line]

/-- Puts a token that starts on the line reached where it belongs. -/
def place (b : Builder) : Token → Builder
  | .text content => b.addText content
  | .startTag start selfClosing =>
    let b := b.flush
    if selfClosing then b.add (.element ⟨start, b.line, .selfClosing⟩ [])
    else if isVoid start.tag then b.add (.element ⟨start, b.line, .void⟩ [])
    else { b with stack := ⟨start, b.line, b.siblings⟩ :: b.stack, siblings := [] }
  | .rawElement start content name trailing =>
    let b := b.flush
    let contentLine := b.line + Text.lineBreaks start.render
    b.add (.element ⟨start, b.line, .explicit name trailing⟩ (rawChildren content contentLine))
  | .endTag name trailing =>
    match b.depthOf? name with
    | none => b.addText (Closing.explicit name trailing).render
    | some depth => (b.flush.closeUnclosed depth).close (.explicit name trailing)

def next (b : Builder) (t : Token) : Builder :=
  { b.place t with line := b.line + Text.lineBreaks t.render }

/-- The finished nodes when the source has ended. -/
def finish (b : Builder) : List Node :=
  let b := b.flush
  (b.closeUnclosed b.stack.length).siblings.reverse

end Builder

def build (ts : List Token) : List Node := (ts.foldl Builder.next .empty).finish

/-- A source that ended inside a construct, and the line it is reported on. -/
structure Unterminated where
  construct : Construct
  line : Nat
  deriving DecidableEq, Repr

def Unterminated.message (e : Unterminated) : String :=
  "unterminated " ++ e.construct.name ++ " starting at line " ++ toString e.line

def lineAt (source rest : Text) : Nat := 1 + (Text.lineBreaks source - Text.lineBreaks rest)

/-- A template. -/
structure Document where
  nodes : List Node
  deriving Repr

namespace Document

def ofText (s : Text) : Except Unterminated Document :=
  match tokens s with
  | .error cut => .error ⟨cut.construct, lineAt s cut.rest⟩
  | .ok ts => .ok ⟨build ts⟩

def toText (d : Document) : Text := Node.renderAll d.nodes

def parse (source : String) : Except Unterminated Document := ofText source.toList

/-- The template as it is written. -/
def render (d : Document) : String := String.ofList d.toText

def elements (d : Document) : List Element := Node.elementsAll d.nodes

def mapElements (f : Element → Element) (d : Document) : Document :=
  ⟨Node.mapElementsAll f d.nodes⟩

/-- Changes the element at a position in document order, if there is one. -/
def modifyElement (f : Element → Element) (i : Nat) (d : Document) : Document :=
  ⟨(Node.modifyElementAll f d.nodes i).1⟩

end Document

end ExtensionAudit.Markup
