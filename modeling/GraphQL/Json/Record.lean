import GraphQL.Json.Reader
import GraphQL.Json.Writer

/-!
Reading records, objects with a fixed set of keys, from JSON text.

A record may also be written as an array of its fields in their order, where fields may be missing
at the end. A key may not be given twice. Keys that the record does not have are skipped, whatever
their values hold, unless the record is closed. `limit` is how many levels of nesting are left.
-/

set_option autoImplicit false

namespace GraphQL.Json.Tree

def distinctMembers (known : List String) (closed : Bool) (seen : Entries Tree) :
    List (Option String × Tree) → Option (Entries Tree)
  | [] => some seen
  | (key, tree) :: members => do
    let key ← key
    if key ∈ known then
      if Entries.contains key seen then none
      else distinctMembers known closed (Entries.insert key tree seen) members
    else if closed then none
    else distinctMembers known closed seen members

/-- The fields that a tree gives for a record with the `known` keys. -/
def record? (known : List String) (closed : Bool) : Tree → Option (Entries Tree)
  | array items => if items.length ≤ known.length then some (known.zip items) else none
  | object members => distinctMembers known closed [] members
  | _ => none

def bool? : Tree → Option Bool
  | bool b => some b
  | _ => none

def string? : Tree → Option String
  | string s => s
  | _ => none

/-- A natural number below `bound`, written as an integer. -/
def natBelow? (bound : Nat) : Tree → Option Nat
  | number (some (.int i)) => if 0 ≤ i ∧ i < bound then some i.toNat else none
  | _ => none

/-- Null is the absent value. -/
def optional? {α : Type} (read : Tree → Option α) : Tree → Option (Option α)
  | null => some none
  | tree => (read tree).map some

def list? {α : Type} (read : Tree → Option α) : Tree → Option (List α)
  | array items => items.mapM read
  | _ => none

def object? (limit : Nat) (tree : Tree) : Option (Entries Value) :=
  match tree with
  | object _ => (tree.toValue limit).map Value.members
  | _ => none

/-- A field of a record, or its default. -/
def field? {α : Type} (fields : Entries Tree) (key : String) (default : Option α)
    (read : Tree → Option α) : Option α :=
  match Entries.get? key fields with
  | some tree => read tree
  | none => default

end GraphQL.Json.Tree
