import GraphQL.Document.Document
import GraphQL.Proofs.Entries

/-!
Documents with other operations and fragments under the same names.

Whatever is found in such a document is what was found under the name before, changed. In
particular, the operation of the same name is chosen (`Document.select_of_alike`).
-/

set_option autoImplicit false

namespace GraphQL.Document

/-- Changes all operations and all fragments. -/
def map (f : Operation Literal → Operation Literal) (g : Fragment Literal → Fragment Literal)
    (d : Document) : Document where
  operations := d.operations.map fun e => (e.1, f e.2)
  fragments := d.fragments.map fun e => (e.1, g e.2)

variable (f : Operation Literal → Operation Literal) (g : Fragment Literal → Fragment Literal)

theorem fragment?_map (d : Document) (name : String) :
    (d.map f g).fragment? name = (d.fragment? name).map g :=
  Entries.get?_map g name d.fragments

/-- Where related operations stand under the same names, related ones are chosen. -/
theorem select_of_alike {P : Operation Literal → Operation Literal → Prop} {d d' : Document}
    (h : Entries.Alike P d.operations d'.operations) (requested : Option String) :
    (∃ o o', d.select requested = .ok (some o) ∧ P o o' ∧ d'.select requested = .ok (some o')) ∨
      (∀ o, d.select requested ≠ .ok (some o)) ∧ d'.select requested = d.select requested := by
  obtain ⟨operations, fragments⟩ := d
  obtain ⟨operations', fragments'⟩ := d'
  dsimp only at h
  match operations, operations', h with
  | [], [], _ => exact .inr ⟨nofun, rfl⟩
  | [(_, o)], [(_, o')], .cons he .nil => exact .inl ⟨o, o', rfl, he.2, rfl⟩
  | first :: second :: rest, first' :: second' :: rest', hall =>
    have hkeys := hall.keys_eq
    simp only [select, ← hkeys]
    cases requested.filter (· ≠ "") with
    | none => exact .inr ⟨nofun, rfl⟩
    | some name =>
      have hget := hall.get? name
      simp only [Option.bind_some]
      generalize Entries.get? name _ = found at hget ⊢
      generalize Entries.get? name _ = found' at hget ⊢
      cases hget with
      | none => exact .inr ⟨nofun, rfl⟩
      | some hP => exact .inl ⟨_, _, rfl, hP, rfl⟩

theorem select_map (d : Document) (requested : Option String) :
    (d.map f g).select requested = (d.select requested).map (Option.map f) := by
  have halike : Entries.Alike (fun o o' => o' = f o) d.operations (d.map f g).operations :=
    List.forall₂_map_right_iff.2 (List.forall₂_same.2 fun _ _ => ⟨rfl, rfl⟩)
  rcases select_of_alike halike requested with ⟨o, _, ho, rfl, ho'⟩ | ⟨hnone, hsame⟩
  · rw [ho, ho']
    rfl
  · rw [hsame]
    match hselect : d.select requested with
    | .error e => rfl
    | .ok none => rfl
    | .ok (some o) => exact absurd hselect (hnone o)

end GraphQL.Document
