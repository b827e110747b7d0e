import ExtensionAudit.Json.Value
/-
  What a JSON value stands for where a text, a list, a table or a structure is
  wanted. A structure is a record of named fields, of which unknown ones are
  passed over and known ones stand at most once, or a list of its fields in their
  order.
-/

namespace ExtensionAudit.Json

def string? : Value → Option String
  | .string value => value
  | _ => none

def list? {α : Type} (item : Value → Option α) : Value → Option (List α)
  | .list items => items.mapM item
  | _ => none

def optional? {α : Type} (value : Value → Option α) : Value → Option (Option α)
  | .null => some none
  | v => (value v).map some

/-- Puts a value under a key: in place of the one it had, or in the order of the keys. -/
def put {α : Type} (key : String) (a : α) : List (String × α) → List (String × α)
  | [] => [(key, a)]
  | (k, b) :: rest =>
    if k = key then (key, a) :: rest
    else if Text.isBefore k.toList key.toList then (k, b) :: put key a rest
    else (key, a) :: (k, b) :: rest

/-- The table that a record is, ordered by key; the last value of a key counts. -/
def table? {α : Type} (value : Value → Option α) : Value → Option (List (String × α))
  | .record members =>
    members.foldlM (fun done (name, v) => do return put (← name) (← value v) done) []
  | _ => none

def given (name : String) (members : List (String × Value)) : List Value :=
  members.filterMap fun (k, v) => if k = name then some v else none

/-- The value of a field that stands at most once. -/
def field? (members : List (String × Value)) (name : String) : Option (Option Value) :=
  match given name members with
  | [] => some none
  | [v] => some (some v)
  | _ => none

/-- The fields of a structure by their names, as far as they are given. -/
def fields? (names : List String) : Value → Option (List (Option Value))
  | .record members => do
    let members ← members.mapM fun (name, v) => name.map (·, v)
    names.mapM (field? members)
  | .list items =>
    if items.length ≤ names.length then
      some (items.map some ++ List.replicate (names.length - items.length) none)
    else none
  | _ => none

/-- The value of a field, or what stands for it when it is not given. -/
def orElse {α : Type} (default : α) (value : Value → Option α) : Option Value → Option α
  | none => some default
  | some v => value v

/-- A text field, empty when it is not given. -/
def text? : Option Value → Option String := orElse "" string?

/-- A text field that may be missing or null. -/
def optionalText? : Option Value → Option (Option String) := orElse none (optional? string?)

def texts? : Option Value → Option (List (String × String)) := orElse [] (table? string?)

end ExtensionAudit.Json
