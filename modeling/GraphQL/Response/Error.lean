import GraphQL.Path
import GraphQL.Text.Location

/-!
Errors as they stand in a response.
-/

set_option autoImplicit false

namespace GraphQL

open Json

namespace Location

def toJson (l : Location) : Value :=
  .object [("line", .int l.line.toNat), ("column", .int l.column.toNat)]

def ofTree? (tree : Tree) : Option Location := do
  let fields ← tree.record? ["line", "column"] false
  let line ← Tree.field? fields "line" none (Tree.natBelow? (Nat.pow 2 32))
  let column ← Tree.field? fields "column" none (Tree.natBelow? (Nat.pow 2 32))
  return ⟨UInt32.ofNat line, UInt32.ofNat column⟩

end Location

/-- An error of a response. Only a field error has a path, which may be empty. -/
structure Error where
  message : String
  locations : List Location
  path : Option Path
  extensions : Entries Value
  deriving Repr

namespace Error

def ofMessage (message : String) : Error := ⟨message, [], none, []⟩

/-- Sets the error code unless the extensions have one. -/
def withCode (code : String) (e : Error) : Error :=
  if Entries.contains "code" e.extensions then e
  else { e with extensions := Entries.insert "code" (.string code) e.extensions }

/-- The code in the extensions, if it is a string or a number. -/
def code? (e : Error) : Option String :=
  match Entries.get? "code" e.extensions with
  | some (.string s) => some s
  | some (.number n) => some n.render
  | _ => none

/-- Empty parts are left out. -/
def toJson (e : Error) : Value :=
  .object <|
    [("message", .string e.message)] ++
    (if e.locations.isEmpty then []
      else [("locations", .array (e.locations.map Location.toJson))]) ++
    (match e.path with
      | some path => [("path", path.toJson)]
      | none => []) ++
    (if e.extensions.isEmpty then [] else [("extensions", .object e.extensions)])

def ofTree? (limit : Nat) (tree : Tree) : Option Error := do
  let fields ← tree.record? ["message", "locations", "path", "extensions"] false
  let message ← Tree.field? fields "message" (some "") Tree.string?
  let locations ← Tree.field? fields "locations" (some []) (Tree.list? Location.ofTree?)
  let path ← Tree.field? fields "path" (some none) (Tree.optional? Path.ofTree?)
  let extensions ← Tree.field? fields "extensions" (some []) (Tree.object? (limit - 1))
  return ⟨message, locations, path, extensions⟩

/-- The error of a failure that has no place in the response: its code stands last. -/
def ofFailure (message : String) (details : Entries Value) (code : String) : Error :=
  ⟨message, [], none, Entries.insert "code" (.string code) details⟩

end Error

end GraphQL
