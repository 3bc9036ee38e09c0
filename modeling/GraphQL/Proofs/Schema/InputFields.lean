import GraphQL.Proofs.Schema.Loaded

/-!
The fields of input object types in schemas that come from a text: none has the name of another.
-/

set_option autoImplicit false

namespace GraphQL

theorem InputValue.nodup_keys_of_table {values : List (InputValue Syntax.Value)}
    {entries : Entries (InputValue Literal)} (h : table values = .ok entries) :
    (Entries.keys entries).Nodup := by
  obtain ⟨literals, -, h⟩ := bind_eq_ok_iff.1 h
  cases h
  exact Entries.nodup_keys_ofList _

namespace Schema

/-- No input object type has two fields of one name. -/
def DistinctFields (schema : Schema) : Prop :=
  ∀ name type, schema.type? name = some (.input type) → (Entries.keys type.fields).Nodup

namespace DistinctFields

variable {schema : Schema}

theorem addType (h : schema.DistinctFields) {d : TypeDefinition}
    (hd : ∀ type, d = .input type → (Entries.keys type.fields).Nodup) :
    (schema.addType d).DistinctFields := by
  intro name type ht
  rw [type?_addType] at ht
  split at ht
  · exact hd type (Option.some.inj ht)
  · exact h name type ht

theorem builtin : builtin.DistinctFields := by
  intro name type ht
  obtain ⟨n, -, hn⟩ := List.mem_map.1 (Entries.mem_of_get? ht)
  cases hn

theorem define {after : Schema} {d : Declaration Syntax.Value} (h : schema.DistinctFields)
    (hafter : schema.define d = .ok after) : after.DistinctFields := by
  cases d with
  | object | interface =>
    obtain ⟨table, -, hafter⟩ := bind_eq_ok_iff.1 hafter
    cases hafter
    exact h.addType (by simp)
  | input name fields =>
    obtain ⟨table, ht, hafter⟩ := bind_eq_ok_iff.1 hafter
    cases hafter
    refine h.addType fun type heq => ?_
    cases heq
    exact InputValue.nodup_keys_of_table ht
  | scalar | union | enum =>
    cases hafter
    exact h.addType (by simp)
  | schema | directive =>
    cases hafter
    exact h

theorem extend {after : Schema} {d : Declaration Syntax.Value} (h : schema.DistinctFields)
    (hafter : schema.extend d = .ok after) : after.DistinctFields := by
  cases d with
  | object | interface =>
    rw [Schema.extend] at hafter
    split at hafter
    · obtain ⟨table, -, hafter⟩ := bind_eq_ok_iff.1 hafter
      cases hafter
      exact h.addType (by simp)
    · cases hafter
  | input name fields =>
    rw [Schema.extend] at hafter
    split at hafter
    · next type ht =>
      obtain ⟨table, -, hafter⟩ := bind_eq_ok_iff.1 hafter
      cases hafter
      refine h.addType fun type' heq => ?_
      cases heq
      exact Entries.nodup_keys_insertAll (h name type ht) table
    · cases hafter
  | union | enum =>
    rw [Schema.extend] at hafter
    split at hafter
    · cases hafter
      exact h.addType (by simp)
    · cases hafter
  | schema | scalar | directive =>
    cases hafter
    exact h

theorem addDefaultRoot (h : schema.DistinctFields) (kind : OperationKind) :
    (schema.addDefaultRoot kind).DistinctFields := by
  unfold Schema.addDefaultRoot
  split <;> exact h

theorem ofItems {items : List (SchemaItem Syntax.Value)} (h : ofItems items = .ok schema) :
    schema.DistinctFields := by
  obtain ⟨defined, hdefined, h⟩ := bind_eq_ok_iff.1 h
  obtain ⟨extended, hextended, h⟩ := bind_eq_ok_iff.1 h
  have hd : defined.DistinctFields :=
    foldlM_induction (P := DistinctFields) (fun _ _ _ _ hs hs' => hs.define hs') builtin hdefined
  have he : extended.DistinctFields :=
    foldlM_induction (P := DistinctFields) (fun _ _ _ _ hs hs' => hs.extend hs') hd hextended
  cases h
  exact ((he.addDefaultRoot _).addDefaultRoot _).addDefaultRoot _

theorem registerResolver {after : Schema} {typeName fieldName : String} {r : Resolver}
    (h : schema.DistinctFields)
    (hafter : schema.registerResolver typeName fieldName r = .ok after) :
    after.DistinctFields := by
  unfold Schema.registerResolver at hafter
  split at hafter
  · next type ht =>
    split at hafter
    · cases hafter
      intro name type' ht'
      rw [type?, Entries.get?_modify] at ht'
      split at ht'
      · next hname =>
        subst hname
        rw [← type?, ht] at ht'
        cases ht'
      · exact h name type' ht'
    · cases hafter
  · cases hafter
  · cases hafter

theorem registerTypeResolver {after : Schema} {typeName : String} {r : TypeResolver}
    (h : schema.DistinctFields) (hafter : schema.registerTypeResolver typeName r = .ok after) :
    after.DistinctFields := by
  unfold Schema.registerTypeResolver at hafter
  split at hafter
  · split at hafter
    · cases hafter
      exact h
    · cases hafter
  · cases hafter

end DistinctFields

theorem distinctFields_of_parse {text : String} {schema : Schema}
    (h : parse text = .ok schema) : schema.DistinctFields := by
  unfold parse at h
  split at h
  · exact .ofItems h
  · cases h

theorem Loaded.distinctFields {schema : Schema} (h : schema.Loaded) : schema.DistinctFields := by
  induction h with
  | parse h => exact distinctFields_of_parse h
  | resolver _ h ih => exact ih.registerResolver h
  | typeResolver _ h ih => exact ih.registerTypeResolver h

end Schema

end GraphQL
