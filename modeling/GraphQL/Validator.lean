import GraphQL.Document.Document
import GraphQL.Response.Error
import GraphQL.Schema.Basic

/-!
Static validation of documents. A document in which errors are found is not executed.
-/

set_option autoImplicit false

namespace GraphQL

abbrev Validator := Document → Schema → List Error

namespace Validator

/-- Finds nothing. -/
def lenient : Validator := fun _ _ => []

/-- Finds the fragments, in the order of their names, whose type condition is not a type of the
schema. -/
def fragmentConditions : Validator := fun document schema =>
  let fragments := document.fragments.mergeSort fun a b => a.1 ≤ b.1
  fragments.filterMap fun (_, f) =>
    if (schema.type? f.condition).isSome then none
    else some ⟨"bad fragment " ++ f.name, f.location.toList, none, []⟩

end Validator

end GraphQL
