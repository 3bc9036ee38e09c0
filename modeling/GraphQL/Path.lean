import GraphQL.Json.Record

/-!
Paths into a response: response keys of fields and indices into lists.
-/

set_option autoImplicit false

namespace GraphQL

open Json

inductive PathElement where
  | index (i : Nat)
  | key (k : String)
  deriving DecidableEq, Repr

namespace PathElement

def render : PathElement → String
  | index i => toString i
  | key k => k

def isIndex : PathElement → Bool
  | index _ => true
  | key _ => false

def toJson : PathElement → Value
  | index i => .int i
  | key k => .string k

/-- An index has 64 bits. -/
def ofTree? : Tree → Option PathElement
  | .string s => s.map key
  | tree => (tree.natBelow? (Nat.pow 2 64)).map index

end PathElement

abbrev Path := List PathElement

namespace Path

def join (path : Path) (element : PathElement) : Path := path ++ [element]

/-- Every element after a slash. -/
def render (path : Path) : String :=
  path.foldl (fun text element => text ++ "/" ++ element.render) ""

def toJson (path : Path) : Value := .array (path.map PathElement.toJson)

def ofTree? : Tree → Option Path := Tree.list? PathElement.ofTree?

def parse? (text : String) : Option Path := (Tree.parse text).bind ofTree?

end Path

end GraphQL
