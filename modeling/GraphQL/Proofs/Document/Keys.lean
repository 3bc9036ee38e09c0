import GraphQL.Document.Document

/-!
Properties of all response keys in selections, and of all in the operations and fragments of a
document.
-/

set_option autoImplicit false

namespace GraphQL

namespace Selection

variable {V W : Type}

mutual

/-- The response keys in a selection have a property. -/
def Keys (K : String → Prop) : Selection V → Prop
  | .field head selections => K head.responseKey ∧ AllKeys K selections
  | .spread _ => True
  | .inline _ selections => AllKeys K selections

def AllKeys (K : String → Prop) : List (Selection V) → Prop
  | [] => True
  | s :: rest => s.Keys K ∧ AllKeys K rest

end

variable {K : String → Prop}

theorem allKeys_iff {selections : List (Selection V)} :
    AllKeys K selections ↔ ∀ s ∈ selections, s.Keys K := by
  induction selections with
  | nil => simp [AllKeys]
  | cons s rest ih => simp [AllKeys, ih]

mutual

theorem keys_of_forall (h : ∀ key, K key) : ∀ s : Selection V, s.Keys K
  | .field head selections => ⟨h head.responseKey, allKeys_of_forall h selections⟩
  | .spread _ => trivial
  | .inline _ selections => allKeys_of_forall h selections

theorem allKeys_of_forall (h : ∀ key, K key) : ∀ selections : List (Selection V),
    AllKeys K selections
  | [] => trivial
  | s :: rest => ⟨keys_of_forall h s, allKeys_of_forall h rest⟩

end

end Selection

/-- The response keys of a field and of all below it have a property. -/
def Field.Keys {V : Type} (K : String → Prop) (f : Field V) : Prop :=
  K f.head.responseKey ∧ Selection.AllKeys K f.selections

theorem Selection.allKeys_flatMap {V : Type} {K : String → Prop} {fields : List (Field V)}
    (h : ∀ f ∈ fields, f.Keys K) : AllKeys K (fields.flatMap (·.selections)) := by
  rw [allKeys_iff]
  intro s hs
  obtain ⟨f, hf, hsf⟩ := List.mem_flatMap.1 hs
  exact allKeys_iff.1 (h f hf).2 s hsf

/-- The response keys in the fragments of a document have a property. -/
def Document.FragmentKeys (K : String → Prop) (d : Document) : Prop :=
  ∀ name f, d.fragment? name = some f → Selection.AllKeys K f.selections

end GraphQL
