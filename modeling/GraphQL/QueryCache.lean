import GraphQL.Document.Document

/-!
Stored documents, which a request asks for by the name of an operation.
-/

set_option autoImplicit false

namespace GraphQL

/-- Finds the document that is stored under a name. -/
abbrev QueryCache := String → Option Document

/-- Documents that are kept in memory. -/
structure StoredDocuments where
  documents : Entries Document

namespace StoredDocuments

def empty : StoredDocuments := ⟨[]⟩

/-- Parses a text and stores the document under a name, in place of an earlier one. -/
def store (name text : String) (s : StoredDocuments) : Except SpecError StoredDocuments := do
  let document ← Document.parse text
  return ⟨Entries.insert name document s.documents⟩

def fetch (s : StoredDocuments) : QueryCache := fun name => Entries.get? name s.documents

end StoredDocuments

end GraphQL
