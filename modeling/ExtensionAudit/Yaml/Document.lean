import ExtensionAudit.Yaml.Token
/-
  YAML documents as trees. Tokens are put together by the grammar of blocks and of
  flow collections; what is left out between two tokens is an empty plain scalar.
  An alias keeps the number of the anchor it means, and a document keeps the nodes
  behind the numbers.
-/

namespace ExtensionAudit.Yaml

inductive Node where
  | scalar (text : Text) (style : Style) (tag : Option Tag)
  | sequence (items : List Node)
  | mapping (pairs : List (Node × Node))
  | alias_ (number : Nat)

/-- What stands where nothing is written. -/
def Node.empty : Node := .scalar [] .plain none

/-- A node that an anchor marks: the number of the anchor, the order in which the node began,
and the node. -/
structure Anchored where
  number : Nat
  order : Nat
  node : Node

/-- A document: its root, and the nodes that aliases mean. -/
structure Document where
  root : Node
  anchored : List Anchored

mutual

/-- The number of events that spell a node: one for a scalar or an alias, and for a collection
one at its beginning and one at its end besides those of what it holds. -/
def Node.events : Node → Nat
  | .scalar _ _ _ => 1
  | .alias_ _ => 1
  | .sequence items => 2 + Node.eventsOfItems items
  | .mapping pairs => 2 + Node.eventsOfPairs pairs

def Node.eventsOfItems : List Node → Nat
  | [] => 0
  | item :: items => item.events + Node.eventsOfItems items

def Node.eventsOfPairs : List (Node × Node) → Nat
  | [] => 0
  | (key, value) :: pairs => key.events + value.events + Node.eventsOfPairs pairs

end

/-- The composer between two nodes: the tokens left, the numbers of the anchors seen, the
number of anchored nodes begun, and those finished. -/
structure Composer where
  tokens : List Token
  anchors : List (Text × Nat)
  begun : Nat
  anchored : List Anchored
  tags : List (Text × Tag)

/-- A step of composing, which may fail. -/
abbrev Compose := StateT Composer Option

namespace Compose

def peek : Compose (Option Token) := do return (← get).tokens.head?

def advance : Compose Unit := modify fun c => { c with tokens := c.tokens.tail }

/-- Ends without a result. -/
def fail {α : Type} : Compose α := fun _ => none

def nextIs (p : Token → Bool) : Compose Bool := do return (← peek).any p

/-- Passes over the next token if it is `t`, and says whether it was. -/
def take (t : Token) : Compose Bool := do
  if (← peek) = some t then
    advance
    return true
  else return false

def numberOf? (name : Text) : List (Text × Nat) → Option Nat
  | [] => none
  | (n, i) :: rest => if n = name then some i else numberOf? name rest

/-- Notes an anchor: it gets the number of names noted before it. -/
def note (name : Text) : Compose (Nat × Nat) :=
  modifyGet fun c =>
    let number := c.anchors.length
    let anchors := (name, number) :: c.anchors.filter (·.1 ≠ name)
    ((number, c.begun), { c with anchors := anchors, begun := c.begun + 1 })

def keep (mark : Option (Nat × Nat)) (n : Node) : Compose Node := do
  match mark with
  | some (number, order) =>
    modify fun c => { c with anchored := ⟨number, order, n⟩ :: c.anchored }
    return n
  | none => return n

def wholeTag (handle : Text) (suffix : Tag) : Compose Tag := do
  if handle.isEmpty then return suffix
  match (← get).tags.find? (·.1 = handle) with
  | some (_, start) => return start ++ suffix
  | none => fail

def anchor? : Compose (Option Text) := do
  match ← peek with
  | some (.anchor name) => advance; return some name
  | _ => return none

def tag? : Compose (Option Tag) := do
  match ← peek with
  | some (.tag handle suffix) => advance; return some (← wholeTag handle suffix)
  | _ => return none

/-- Reads an anchor and a tag in either order. -/
def properties : Compose (Option Text × Option Tag) := do
  match ← anchor? with
  | some name => return (some name, ← tag?)
  | none =>
    match ← tag? with
    | some tag => return (← anchor?, some tag)
    | none => return (none, none)

def endsEntry (t : Token) : Bool := t = .key || t = .value || t = .blockEnd

mutual

/-- Reads a node. `block` allows block collections, and `indentless` a block sequence whose
dashes stand in the column of the mapping around it. -/
def node (fuel : Nat) (block indentless : Bool) : Compose Node :=
  match fuel with
  | 0 => fail
  | fuel + 1 => do
    if let some (.alias_ name) := ← peek then
      advance
      match numberOf? name (← get).anchors with
      | some number => return .alias_ number
      | none => fail
    else
      let (name, tag) ← properties
      let mark ← match name with
        | some name => do pure (some (← note name))
        | none => pure none
      match ← peek with
      | some .blockEntry =>
        if indentless then keep mark (.sequence (← indentlessItems fuel)) else bare mark name tag
      | some (.scalar text style) => advance; keep mark (.scalar text style tag)
      | some .flowSequence => advance; keep mark (.sequence (← flowItems fuel true))
      | some .flowMapping => advance; keep mark (.mapping (← flowPairs fuel true))
      | some .blockSequence =>
        if block then
          advance
          keep mark (.sequence (← blockItems fuel))
        else bare mark name tag
      | some .blockMapping =>
        if block then
          advance
          keep mark (.mapping (← blockPairs fuel))
        else bare mark name tag
      | _ => bare mark name tag

/-- A node that has nothing but an anchor or a tag. -/
def bare (mark : Option (Nat × Nat)) (name : Option Text) (tag : Option Tag) :
    Compose Node :=
  if name.isSome || tag.isSome then keep mark (.scalar [] .plain tag) else fail

def blockItems (fuel : Nat) : Compose (List Node) :=
  match fuel with
  | 0 => fail
  | fuel + 1 => do
    if ← take .blockEntry then
      let item ←
        if ← nextIs fun t => t = .blockEntry || t = .blockEnd then pure .empty
        else node fuel true false
      return item :: (← blockItems fuel)
    else if ← take .blockEnd then return []
    else fail

/-- Reads the items of a block sequence that is not indented. -/
def indentlessItems (fuel : Nat) : Compose (List Node) :=
  match fuel with
  | 0 => fail
  | fuel + 1 => do
    if ← take .blockEntry then
      let item ←
        if ← nextIs fun t => t = .blockEntry || endsEntry t then pure .empty
        else node fuel true false
      return item :: (← indentlessItems fuel)
    else return []

def blockPairs (fuel : Nat) : Compose (List (Node × Node)) :=
  match fuel with
  | 0 => fail
  | fuel + 1 => do
    if ← take .key then
      let key ← if ← nextIs endsEntry then pure .empty else node fuel true true
      let value ←
        if ← take .value then
          if ← nextIs endsEntry then pure .empty else node fuel true true
        else pure .empty
      return (key, value) :: (← blockPairs fuel)
    else if ← take .blockEnd then return []
    else fail

/-- Reads the items of a flow sequence; an item that is a pair is a mapping of its own. -/
def flowItems (fuel : Nat) (first : Bool) : Compose (List Node) :=
  match fuel with
  | 0 => fail
  | fuel + 1 => do
    if ← take .flowSequenceEnd then return []
    if !first then
      if !(← take .flowEntry) then fail
    if ← take .flowSequenceEnd then return []
    let item ← if ← take .key then flowPair fuel else node fuel false false
    return item :: (← flowItems fuel false)

/-- Reads a pair inside a flow sequence. A missing key takes the token behind it. -/
def flowPair (fuel : Nat) : Compose Node :=
  match fuel with
  | 0 => fail
  | fuel + 1 => do
    let key ←
      if ← nextIs fun t => t = .value || t = .flowEntry || t = .flowSequenceEnd then do
        advance
        pure .empty
      else node fuel false false
    let value ←
      if ← take .value then
        if ← nextIs fun t => t = .flowEntry || t = .flowSequenceEnd then pure .empty
        else node fuel false false
      else pure .empty
    return .mapping [(key, value)]

def flowPairs (fuel : Nat) (first : Bool) : Compose (List (Node × Node)) :=
  match fuel with
  | 0 => fail
  | fuel + 1 => do
    if ← take .flowMappingEnd then return []
    if !first then
      if !(← take .flowEntry) then fail
    if ← take .flowMappingEnd then return []
    let endsPair (t : Token) : Bool := t = .flowEntry || t = .flowMappingEnd
    let pair ←
      if ← take .key then
        let key ←
          if ← nextIs fun t => t = .value || endsPair t then pure .empty
          else node fuel false false
        let value ←
          if ← take .value then
            if ← nextIs endsPair then pure .empty else node fuel false false
          else pure .empty
        pure (key, value)
      else do pure (← node fuel false false, .empty)
    return pair :: (← flowPairs fuel false)

end

/-! ## Documents -/

/-- The tag handles that every document knows. -/
def defaultTags : List (Text × Tag) :=
  [(['!'], Tag.ofText ['!']), (['!', '!'], Tag.ofText "tag:yaml.org,2002:".toList)]

/-- Reads the directives in front of a document: at most one version, which must be 1.1 or
1.2, and each tag handle at most once. -/
def directives (version : Bool) (tags : List (Text × Tag)) : Nat → Compose (List (Text × Tag))
  | 0 => fail
  | fuel + 1 => do
    match ← peek with
    | some (.versionDirective major minor) =>
      if version || major ≠ 1 || (minor ≠ 1 && minor ≠ 2) then fail
      else
        advance
        directives true tags fuel
    | some (.tagDirective handle start) =>
      if tags.any (·.1 = handle) then fail
      else
        advance
        directives version ((handle, start) :: tags) fuel
    | _ => return tags

/-- Whether a token belongs between documents. -/
def isBoundary : Token → Bool
  | .versionDirective _ _ | .tagDirective _ _ | .documentStart | .documentEnd | .streamEnd =>
    true
  | _ => false

/-- Passes over the markers behind a document. -/
def skipEnds : Nat → Compose Unit
  | 0 => return
  | fuel + 1 => do if ← take .documentEnd then skipEnds fuel

/-- Reads the only document of a text, if there is one. -/
def stream (fuel : Nat) : Compose (Option Node) := do
  if ← take .streamEnd then return none
  let explicit ← nextIs fun t => isBoundary t && t ≠ .documentEnd
  let root ←
    if explicit then
      let tags ← directives false [] fuel
      modify fun c => { c with tags := tags ++ defaultTags }
      if !(← take .documentStart) then fail
      if ← nextIs isBoundary then pure .empty else node fuel true false
    else node fuel true false
  skipEnds fuel
  if ← take .streamEnd then return some root else fail

end Compose

def parse? (s : Text) : Option (Option Document) := do
  let ts ← tokens? s
  let (root, c) ← (Compose.stream (2 * ts.length + 2)).run ⟨ts, [], 0, [], Compose.defaultTags⟩
  return root.map fun root => ⟨root, c.anchored⟩

/-- The node that an alias means: of those with its number, the one that began last. -/
def Document.meaning? (d : Document) (number : Nat) : Option Node :=
  let candidates := d.anchored.filter (·.number = number)
  let last := candidates.foldl (fun best a =>
    match best with
    | some b => if b.order < a.order then some a else some b
    | none => some a) (none : Option Anchored)
  last.map (·.node)

end ExtensionAudit.Yaml
