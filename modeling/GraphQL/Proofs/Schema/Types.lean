import GraphQL.Schema.Basic

/-!
Which types look-ups in a schema find.
-/

set_option autoImplicit false

namespace GraphQL

theorem TypeDefinition.isLeaf_eq_false {d : TypeDefinition} (h : d.isAbstract = true) :
    d.isLeaf = false := by
  cases d <;> first | rfl | cases h

namespace Schema

open Json

theorem type?_of_objectType? {schema : Schema} {name : String} {type : ObjectType}
    (h : schema.objectType? name = some type) : schema.type? name = some (.object type) := by
  unfold objectType? at h
  split at h
  · next t ht => exact (Option.some.inj h) ▸ ht
  · cases h

/-- The type of a value of an abstract type is the claimed one, and it is a possible one. -/
theorem exists_of_concreteType? {schema : Schema} {name : String} {value : Value}
    {type : ObjectType} (h : schema.concreteType? name value = some type) :
    ∃ claimed, schema.claimedType? name value = some claimed ∧
      schema.isPossibleType name claimed = true ∧
        schema.type? claimed = some (.object type) := by
  unfold concreteType? at h
  obtain ⟨claimed, hc, ht⟩ := Option.bind_eq_some_iff.1 h
  obtain ⟨hclaimed, hpossible⟩ := Option.filter_eq_some_iff.1 hc
  exact ⟨claimed, hclaimed, hpossible, type?_of_objectType? ht⟩

theorem exists_of_rootType? {schema : Schema} {kind : OperationKind} {type : ObjectType}
    (h : schema.rootType? kind = some type) :
    ∃ name, schema.type? name = some (.object type) := by
  obtain ⟨name, -, hn⟩ := Option.bind_eq_some_iff.1 h
  exact ⟨name, type?_of_objectType? hn⟩

end Schema

end GraphQL
