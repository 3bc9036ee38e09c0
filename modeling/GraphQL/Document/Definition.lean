import GraphQL.Document.Selection
import GraphQL.TypeRef

/-!
Executable definitions, operations and fragments, over the type `V` of the values in them.
-/

set_option autoImplicit false

namespace GraphQL

inductive OperationKind where
  | query
  | mutation
  | subscription
  deriving DecidableEq, Repr, Inhabited

namespace OperationKind

def render : OperationKind → String
  | query => "query"
  | mutation => "mutation"
  | subscription => "subscription"

/-- The root type of a schema that does not name one. -/
def defaultTypeName : OperationKind → String
  | query => "Query"
  | mutation => "Mutation"
  | subscription => "Subscription"

end OperationKind

structure VariableDefinition (V : Type) where
  name : String
  type : TypeRef
  default : Option V
  location : Option Location
  deriving DecidableEq, Repr

structure Operation (V : Type) where
  /-- An anonymous operation has none. -/
  name : Option String
  kind : OperationKind
  variableDefinitions : List (VariableDefinition V)
  directives : List (Directive V)
  selections : List (Selection V)
  location : Option Location
  deriving Repr

structure Fragment (V : Type) where
  name : String
  condition : String
  directives : List (Directive V)
  selections : List (Selection V)
  location : Option Location
  deriving Repr

inductive Definition (V : Type) where
  | operation (o : Operation V)
  | fragment (f : Fragment V)
  deriving Repr

def Operation.findVariable? {V : Type} (o : Operation V) (name : String) :
    Option (VariableDefinition V) :=
  o.variableDefinitions.find? (·.name == name)

section Traverse

variable {V W E : Type} (f : String → V → Except E W)

def VariableDefinition.traverse (d : VariableDefinition V) :
    Except E (VariableDefinition W) := do
  return ⟨d.name, d.type, ← d.default.mapM (f d.name), d.location⟩

def Operation.traverse (o : Operation V) : Except E (Operation W) := do
  let variableDefinitions ← o.variableDefinitions.mapM (·.traverse f)
  let directives ← o.directives.mapM (·.traverse f)
  let selections ← Selection.traverseAll f o.selections
  return ⟨o.name, o.kind, variableDefinitions, directives, selections, o.location⟩

def Fragment.traverse (fr : Fragment V) : Except E (Fragment W) := do
  let directives ← fr.directives.mapM (·.traverse f)
  let selections ← Selection.traverseAll f fr.selections
  return ⟨fr.name, fr.condition, directives, selections, fr.location⟩

def Definition.traverse : Definition V → Except E (Definition W)
  | .operation o => do return .operation (← o.traverse f)
  | .fragment fr => do return .fragment (← fr.traverse f)

end Traverse

end GraphQL
