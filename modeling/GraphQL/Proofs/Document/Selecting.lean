import GraphQL.Proofs.Document.Lowering

/-!
Documents built from definitions, and the operation that is chosen in them.

Of the definitions of a name the last one counts, but an operation stands where its name first
appeared. A document whose operations all have one name has a single operation, which is chosen
whatever is asked for (`Document.select_ofDefinitions`).
-/

set_option autoImplicit false

namespace GraphQL

namespace Definition

variable {V : Type}

/-- The names of the operations, each where it first appears; an anonymous operation has the empty
one. -/
def operationNames (definitions : List (Definition V)) : List String :=
  ((operations definitions).map (·.name.getD "")).eraseDups

def lastOperation? (definitions : List (Definition V)) (name : String) : Option (Operation V) :=
  ((operations definitions).filter (·.name.getD "" = name)).getLast?

def lastFragment? (definitions : List (Definition V)) (name : String) : Option (Fragment V) :=
  ((fragments definitions).filter (·.name = name)).getLast?

end Definition

namespace Document

open Definition

variable (definitions : List (Definition Literal))

theorem keys_operations :
    Entries.keys (ofDefinitions definitions).operations = operationNames definitions := by
  have hnames : Entries.keys ((Definition.operations definitions).map fun o =>
      (o.name.getD "", o)) = (Definition.operations definitions).map (·.name.getD "") := by
    rw [Entries.keys, List.map_map]
    rfl
  rw [ofDefinitions_eq, Entries.keys_ofList, hnames, operationNames]

theorem get?_operations (name : String) :
    Entries.get? name (ofDefinitions definitions).operations =
      lastOperation? definitions name := by
  rw [ofDefinitions_eq, Entries.get?_ofList, List.filter_map, List.getLast?_map, Option.map_map]
  exact Option.map_id'

theorem get?_fragments (name : String) :
    Entries.get? name (ofDefinitions definitions).fragments = lastFragment? definitions name := by
  rw [ofDefinitions_eq, Entries.get?_ofList, List.filter_map, List.getLast?_map, Option.map_map]
  exact Option.map_id'

theorem map_some_operations :
    (ofDefinitions definitions).operations.map (fun e => some e.2) =
      (operationNames definitions).map (lastOperation? definitions) := by
  have hdistinct : (Entries.keys (ofDefinitions definitions).operations).Nodup := by
    rw [ofDefinitions_eq]
    exact Entries.nodup_keys_ofList _
  rw [Entries.map_some_eq hdistinct, keys_operations]
  exact List.map_congr_left fun name _ => get?_operations definitions name

theorem select_of_two_le {d : Document} (h : 2 ≤ d.operations.length)
    (requested : Option String) :
    d.select requested =
      match (requested.filter (· ≠ "")).bind fun name => Entries.get? name d.operations with
      | some o => .ok (some o)
      | none => .error ⟨requested, Entries.keys d.operations⟩ := by
  obtain ⟨operations, fragments⟩ := d
  rcases operations with _ | ⟨first, _ | ⟨second, operations⟩⟩
  · simp at h
  · simp at h
  · rfl

/-- What is chosen depends on the names of the operations and on what stands under each. -/
theorem select_eq (d : Document) (requested : Option String) :
    d.select requested =
      match Entries.keys d.operations with
      | [] => .ok none
      | [name] => .ok (Entries.get? name d.operations)
      | names =>
        match requested.filter (fun name => name ≠ "" ∧ name ∈ names) with
        | some name => .ok (Entries.get? name d.operations)
        | none => .error ⟨requested, names⟩ := by
  rcases hall : d.operations with _ | ⟨⟨first, o⟩, _ | ⟨⟨second, o'⟩, operations⟩⟩
  · rw [select, hall]
    rfl
  · rw [select, hall]
    simp [Entries.keys, Entries.get?]
  · rw [select_of_two_le (by rw [hall]; exact Nat.le_add_left 2 _), hall]
    have hnames : Entries.keys ((first, o) :: (second, o') :: operations) =
        first :: second :: Entries.keys operations := rfl
    generalize (first, o) :: (second, o') :: operations = all at hnames ⊢
    simp only [hnames]
    rw [← hnames]
    cases requested with
    | none => rfl
    | some name =>
      simp only [Option.filter_some]
      by_cases hempty : name = ""
      · simp [hempty]
      · cases hget : Entries.get? name all with
        | none => simp [hempty, hget, Entries.get?_eq_none_iff.1 hget]
        | some o =>
          have hmem : name ∈ Entries.keys all :=
            List.mem_map.2 ⟨(name, o), Entries.mem_of_get? hget, rfl⟩
          simp [hempty, hget, hmem]

/-- For all definitions: the last of a name is the one that is found under it, the operations are
listed in the order in which their names first appear, and the choice among them is told by these
names. -/
theorem select_ofDefinitions (definitions : List (Definition Literal)) :
    (∀ name, (ofDefinitions definitions).operation? name =
        lastOperation? definitions (name.getD "")) ∧
      (∀ name, (ofDefinitions definitions).fragment? name = lastFragment? definitions name) ∧
      (ofDefinitions definitions).operations.map (fun e => some e.2) =
        (operationNames definitions).map (lastOperation? definitions) ∧
      ∀ requested, (ofDefinitions definitions).select requested =
        match operationNames definitions with
        | [] => .ok none
        | [name] => .ok (lastOperation? definitions name)
        | names =>
          match requested.filter (fun name => name ≠ "" ∧ name ∈ names) with
          | some name => .ok (lastOperation? definitions name)
          | none => .error ⟨requested, names⟩ := by
  refine ⟨fun name => get?_operations definitions (name.getD ""), get?_fragments definitions,
    map_some_operations definitions, fun requested => ?_⟩
  rw [select_eq, keys_operations]
  simp only [get?_operations]

end Document

end GraphQL
