import ExtensionAudit.Json.Token
/-
  JSON values and their reader. The reader is a machine that takes one token at a
  time and keeps the lists and records it is in on a stack, so depth costs it
  nothing. Records keep their members as written, repeated names included.
-/

namespace ExtensionAudit.Json

/-- A JSON value. A string, or the name of a member, may be without a value of its own. -/
inductive Value where
  | null
  | bool (b : Bool)
  | number (literal : Text)
  | string (value : Option String)
  | list (items : List Value)
  | record (members : List (Option String × Value))

/-- A list or record that is not finished: what it holds so far, last first, and the name of
the member being read. -/
inductive Frame where
  | list (seen : List Value)
  | record (seen : List (Option String × Value)) (name : Option String)

/-- What may come next. -/
inductive Expected where
  /-- a value -/
  | value
  /-- a value, or the end of a list just opened -/
  | valueOrEnd
  /-- the name of a member -/
  | name
  /-- the name of a member, or the end of a record just opened -/
  | nameOrEnd
  /-- the colon behind a name -/
  | colon
  /-- a comma, or the end of the innermost list or record -/
  | separator
  /-- nothing: the value is complete -/
  | nothing (v : Value)

structure Reader where
  stack : List Frame
  expected : Expected

namespace Reader

/-- Nothing read yet. -/
def start : Reader := ⟨[], .value⟩

def finish (stack : List Frame) (v : Value) : Reader :=
  match stack with
  | [] => ⟨[], .nothing v⟩
  | .list seen :: stack => ⟨.list (v :: seen) :: stack, .separator⟩
  | .record seen name :: stack => ⟨.record ((name, v) :: seen) name :: stack, .separator⟩

def begin? (stack : List Frame) : Token → Option Reader
  | .null => some (finish stack .null)
  | .bool b => some (finish stack (.bool b))
  | .number literal => some (finish stack (.number literal))
  | .string value => some (finish stack (.string value))
  | .openList => some ⟨.list [] :: stack, .valueOrEnd⟩
  | .openRecord => some ⟨.record [] none :: stack, .nameOrEnd⟩
  | _ => none

def end? (stack : List Frame) (t : Token) : Option Reader :=
  match stack, t with
  | .list seen :: stack, .closeList => some (finish stack (.list seen.reverse))
  | .record seen _ :: stack, .closeRecord => some (finish stack (.record seen.reverse))
  | _, _ => none

def name? (stack : List Frame) (t : Token) : Option Reader :=
  match stack, t with
  | .record seen _ :: stack, .string value => some ⟨.record seen value :: stack, .colon⟩
  | _, _ => none

/-- Takes a comma, after which the innermost list or record goes on. -/
def comma? (stack : List Frame) (t : Token) : Option Reader :=
  match stack, t with
  | .list seen :: stack, .comma => some ⟨.list seen :: stack, .value⟩
  | .record seen name :: stack, .comma => some ⟨.record seen name :: stack, .name⟩
  | _, _ => none

def next? (r : Reader) (t : Token) : Option Reader :=
  match r.expected with
  | .value => begin? r.stack t
  | .valueOrEnd => if t = .closeList then end? r.stack t else begin? r.stack t
  | .name => name? r.stack t
  | .nameOrEnd => if t = .closeRecord then end? r.stack t else name? r.stack t
  | .colon => if t = .colon then some ⟨r.stack, .value⟩ else none
  | .separator => if t = .comma then comma? r.stack t else end? r.stack t
  | .nothing _ => none

def value? (r : Reader) : Option Value :=
  match r.expected with
  | .nothing v => some v
  | _ => none

end Reader

def valueOf? (ts : List Token) : Option Value :=
  (ts.foldlM Reader.next? Reader.start).bind Reader.value?

def parse? (s : String) : Option Value := (tokens? s.toList).bind valueOf?

end ExtensionAudit.Json
