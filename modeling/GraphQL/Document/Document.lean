import GraphQL.Literal
import GraphQL.Syntax.Document

/-!
Documents: the operations and fragments of a text under their names, and the choice of the
operation to run.
-/

set_option autoImplicit false

namespace GraphQL

/-- Operations stand under their names in order of first appearance, the anonymous one under the
empty name. -/
structure Document where
  operations : Entries (Operation Literal)
  fragments : Entries (Fragment Literal)
  deriving Repr, Inhabited

/-- Why no operation could be chosen among several. -/
structure OperationNotSelected where
  requested : Option String
  available : List String
  deriving DecidableEq, Repr

def OperationNotSelected.message (e : OperationNotSelected) : String :=
  let available := "; available operations: [" ++ ", ".intercalate e.available ++ "]"
  match e.requested.filter (· ≠ "") with
  | none => "must provide operation name if query contains multiple operations" ++ available
  | some name => "unknown operation named \"" ++ name ++ "\"" ++ available

namespace Document

def empty : Document := ⟨[], []⟩

/-- A definition takes the place of an earlier one of its name. -/
def add (d : Document) : Definition Literal → Document
  | .operation o => { d with operations := Entries.insert (o.name.getD "") o d.operations }
  | .fragment f => { d with fragments := Entries.insert f.name f d.fragments }

def ofDefinitions (definitions : List (Definition Literal)) : Document :=
  definitions.foldl add empty

/-- The document of the executable definitions of a text; others are skipped. The first defect in
the text is the error. -/
def ofItems (items : List Syntax.Item) : Except SpecError Document := do
  let definitions ← (items.filterMap (·.executable?)).mapM
    (Definition.traverse Literal.ofArgument)
  return ofDefinitions definitions

def parse (text : String) : Except SpecError Document :=
  match Syntax.Item.parse text with
  | .ok items => ofItems items
  | .error e => .error (.syntaxError e)

def operation? (d : Document) (name : Option String) : Option (Operation Literal) :=
  Entries.get? (name.getD "") d.operations

def fragment? (d : Document) (name : String) : Option (Fragment Literal) :=
  Entries.get? name d.fragments

/-- A single operation is chosen whatever name is asked for; of several, the one of a name that is
not empty. -/
def select (d : Document) (requested : Option String) :
    Except OperationNotSelected (Option (Operation Literal)) :=
  match d.operations with
  | [] => .ok none
  | [(_, o)] => .ok (some o)
  | operations =>
    match (requested.filter (· ≠ "")).bind fun name => Entries.get? name operations with
    | some o => .ok (some o)
    | none => .error ⟨requested, Entries.keys operations⟩

end Document

end GraphQL
