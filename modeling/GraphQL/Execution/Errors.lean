import GraphQL.Execution.Strategy
import GraphQL.Response.Error

/-!
The order of the errors of a response: by their position in the data, then by the text of their
path, then by their message.
-/

set_option autoImplicit false

namespace GraphQL.Execution

open Json

/-- Where a step of a path leads: which member of an object, or which item of a list. A step that
leads nowhere comes after all others. -/
abbrev Place := Option Nat

namespace Place

def compare : Place → Place → Ordering
  | none, none => .eq
  | none, some _ => .gt
  | some _, none => .lt
  | some i, some j => Ord.compare i j

end Place

/-- The place of a key among the members of an object, with its value. -/
def memberAt? (key : String) : Nat → List (String × Value) → Option (Nat × Value)
  | _, [] => none
  | i, (k, v) :: members => if k = key then some (i, v) else memberAt? key (i + 1) members

/-- The places of the steps of a path in the data. An index below a list is its own place even
beyond the end of the list. -/
def places : Option Value → Path → List Place
  | _, [] => []
  | some (.object members), .key k :: path =>
    match memberAt? k 0 members with
    | some (i, v) => some i :: places (some v) path
    | none => none :: places none path
  | some (.array items), .index i :: path => some i :: places items[i]? path
  | _, _ :: path => none :: places none path

/-- A list comes after its own beginnings. -/
def comparePlaces : List Place → List Place → Ordering
  | [], [] => .eq
  | [], _ :: _ => .lt
  | _ :: _, [] => .gt
  | p :: ps, q :: qs => (p.compare q).then (comparePlaces ps qs)

/-- What the order of errors looks at. -/
structure ErrorKey where
  places : List Place
  path : String
  message : String

namespace ErrorKey

def ofError (data : Value) (e : Error) : ErrorKey :=
  let path := e.path.getD []
  ⟨Execution.places (some data) path, path.render, e.message⟩

def compare (a b : ErrorKey) : Ordering :=
  (comparePlaces a.places b.places).then
    ((Ord.compare a.path b.path).then (Ord.compare a.message b.message))

end ErrorKey

/-- Errors with equal keys stay in the order in which they were recorded. -/
def sortErrors (data : Value) (errors : List Error) : List Error :=
  ((errors.map fun e => (ErrorKey.ofError data e, e)).mergeSort
    fun a b => (a.1.compare b.1).isLE).map Prod.snd

/-- The data and the errors that an execution comes to. -/
structure Output where
  data : Value
  errors : List Error

/-- The output of an execution that ends with a completion and has recorded errors. -/
def Output.of (c : Completion) (errors : List Error) : Output :=
  ⟨c.data, sortErrors c.data errors⟩

end GraphQL.Execution
