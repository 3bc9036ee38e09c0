import GraphQL.Proofs.Document.Mapping

/-!
Documents in which all fields have other response keys.

Every field is given an alias that depends on its response key only, and nothing else is changed.
-/

set_option autoImplicit false

namespace GraphQL

namespace Entries

variable {α β : Type}

/-- The map with other names and other values. -/
def relabel (r : String → String) (f : α → β) (m : Entries α) : Entries β :=
  m.map fun e => (r e.1, f e.2)

theorem keys_relabel (r : String → String) (f : α → β) (m : Entries α) :
    keys (relabel r f m) = (keys m).map r := by
  simp [relabel, keys]

variable {r : String → String} (hr : Function.Injective r) (f : α → β)

include hr

theorem get?_relabel (key : String) (m : Entries α) :
    get? (r key) (relabel r f m) = (get? key m).map f := by
  induction m with
  | nil => rfl
  | cons e m ih =>
    obtain ⟨k, a⟩ := e
    rw [relabel, List.map_cons]
    by_cases hk : k = key
    · rw [get?, get?, if_pos hk, if_pos (congrArg r hk)]
      rfl
    · rw [get?, get?, if_neg hk, if_neg fun h => hk (hr h)]
      exact ih

theorem insert_relabel (key : String) (a : α) (m : Entries α) :
    insert (r key) (f a) (relabel r f m) = relabel r f (insert key a m) := by
  induction m with
  | nil => rfl
  | cons e m ih =>
    obtain ⟨k, b⟩ := e
    rw [relabel, List.map_cons]
    by_cases hk : k = key
    · rw [insert, insert, if_pos hk, if_pos (congrArg r hk)]
      rfl
    · rw [insert, insert, if_neg hk, if_neg fun h => hk (hr h)]
      exact congrArg ((r k, f b) :: ·) ih

end Entries

variable {V : Type}

/-- Appears under what becomes of its response key. -/
def FieldHead.relabel (r : String → String) (h : FieldHead V) : FieldHead V :=
  { h with alias? := some (r h.responseKey) }

namespace Selection

mutual

def relabel (r : String → String) : Selection V → Selection V
  | .field head selections => .field (head.relabel r) (relabelAll r selections)
  | .spread sp => .spread sp
  | .inline head selections => .inline head (relabelAll r selections)

def relabelAll (r : String → String) : List (Selection V) → List (Selection V)
  | [] => []
  | node :: nodes => node.relabel r :: relabelAll r nodes

end

theorem relabelAll_append (r : String → String) (nodes later : List (Selection V)) :
    relabelAll r (nodes ++ later) = relabelAll r nodes ++ relabelAll r later := by
  induction nodes with
  | nil => rfl
  | cons node nodes ih => rw [List.cons_append, relabelAll, relabelAll, ih, List.cons_append]

end Selection

def Field.relabel (r : String → String) (f : Field V) : Field V :=
  ⟨f.head.relabel r, Selection.relabelAll r f.selections⟩

theorem Field.flatMap_relabel (r : String → String) (fields : List (Field V)) :
    (fields.map (relabel r)).flatMap (·.selections) =
      Selection.relabelAll r (fields.flatMap (·.selections)) := by
  induction fields with
  | nil => rfl
  | cons f fields ih =>
    rw [List.map_cons, List.flatMap_cons, List.flatMap_cons, Selection.relabelAll_append, ih]
    rfl

def Operation.relabel (r : String → String) (o : Operation Literal) : Operation Literal :=
  { o with selections := Selection.relabelAll r o.selections }

def Fragment.relabel (r : String → String) (f : Fragment Literal) : Fragment Literal :=
  { f with selections := Selection.relabelAll r f.selections }

/-- The document in which every field has an alias, which is made from its response key. -/
def Document.relabel (r : String → String) : Document → Document := map (·.relabel r) (·.relabel r)

end GraphQL
