import GraphQL.Proofs.Entries
import GraphQL.Proofs.Syntax.Grammar
import GraphQL.Schema.Build

/-!
Schemas that come from a text, with any resolvers registered.

Whatever the text, types stand under their own names, and fields of object types have plain types
(`Schema.Loaded.wellFormed`).
-/

set_option autoImplicit false

namespace GraphQL

def TypeDefinition.Plain : TypeDefinition → Prop
  | .object type => ∀ e ∈ type.fields, e.2.type.Plain
  | .interface type => ∀ e ∈ type.fields, e.2.type.Plain
  | _ => True

theorem FieldDefinition.plain_of_table {fields : List (FieldDeclaration Syntax.Value)}
    {entries : Entries FieldDefinition} (h : table fields = .ok entries)
    (hf : ∀ f ∈ fields, f.type.Plain) : ∀ e ∈ entries, e.2.type.Plain := by
  obtain ⟨definitions, hd, h⟩ := bind_eq_ok_iff.1 h
  cases h
  intro e he
  rcases Entries.mem_insertAll he with he | he
  · cases he
  · obtain ⟨d, hmem, rfl⟩ := List.mem_map.1 he
    obtain ⟨f, hfmem, hfd⟩ := exists_of_mem_mapM hd hmem
    obtain ⟨arguments, -, hfd⟩ := bind_eq_ok_iff.1 hfd
    cases hfd
    exact hf f hfmem

namespace Schema

/-- A schema read from a text, in which resolvers were registered. -/
inductive Loaded : Schema → Prop where
  | parse {text : String} {schema : Schema} : Schema.parse text = .ok schema → Loaded schema
  | resolver {schema after : Schema} {typeName fieldName : String} {r : Resolver} :
      Loaded schema → schema.registerResolver typeName fieldName r = .ok after → Loaded after
  | typeResolver {schema after : Schema} {typeName : String} {r : TypeResolver} :
      Loaded schema → schema.registerTypeResolver typeName r = .ok after → Loaded after

/-- Each type stands under its own name, and fields have plain types. -/
def WellFormed (schema : Schema) : Prop :=
  ∀ name d, schema.type? name = some d → d.name = name ∧ d.Plain

theorem type?_addType (schema : Schema) (d : TypeDefinition) (name : String) :
    (schema.addType d).type? name = if name = d.name then some d else schema.type? name :=
  Entries.get?_insert d.name name d schema.types

namespace WellFormed

variable {schema : Schema}

theorem addRoots (h : schema.WellFormed) (roots : List (OperationKind × Option String)) :
    (schema.addRoots roots).WellFormed := h

theorem addType (h : schema.WellFormed) {d : TypeDefinition} (hd : d.Plain) :
    (schema.addType d).WellFormed := by
  intro name d' hd'
  rw [type?_addType] at hd'
  split at hd'
  · next hname =>
    cases hd'
    exact ⟨hname.symm, hd⟩
  · exact h name d' hd'

theorem builtin : builtin.WellFormed := by
  intro name d hd
  have hmem : (name, d) ∈ Schema.builtin.types := Entries.mem_of_get? hd
  obtain ⟨n, -, hn⟩ := List.mem_map.1 hmem
  cases hn
  exact ⟨rfl, trivial⟩

theorem define {after : Schema} {d : Declaration Syntax.Value} (h : schema.WellFormed)
    (hd : d.Plain) (hafter : schema.define d = .ok after) : after.WellFormed := by
  cases d with
  | schema roots =>
    cases hafter
    exact h.addRoots roots
  | scalar name =>
    cases hafter
    exact h.addType trivial
  | object name implements fields =>
    obtain ⟨table, ht, hafter⟩ := bind_eq_ok_iff.1 hafter
    cases hafter
    exact h.addType (FieldDefinition.plain_of_table ht hd)
  | interface name implements fields =>
    obtain ⟨table, ht, hafter⟩ := bind_eq_ok_iff.1 hafter
    cases hafter
    exact h.addType (FieldDefinition.plain_of_table ht hd)
  | union name members =>
    cases hafter
    exact h.addType trivial
  | enum name values =>
    cases hafter
    exact h.addType trivial
  | input name fields =>
    obtain ⟨table, ht, hafter⟩ := bind_eq_ok_iff.1 hafter
    cases hafter
    exact h.addType trivial
  | directive name =>
    cases hafter
    exact h

theorem plain_insertAll {fields new : Entries FieldDefinition}
    (hf : ∀ e ∈ fields, e.2.type.Plain) (hn : ∀ e ∈ new, e.2.type.Plain) :
    ∀ e ∈ Entries.insertAll fields new, e.2.type.Plain :=
  fun e he => (Entries.mem_insertAll he).elim (hf e) (hn e)

theorem extend {after : Schema} {d : Declaration Syntax.Value} (h : schema.WellFormed)
    (hd : d.Plain) (hafter : schema.extend d = .ok after) : after.WellFormed := by
  cases d with
  | schema roots =>
    cases hafter
    exact h.addRoots roots
  | object name implements fields =>
    rw [Schema.extend] at hafter
    split at hafter
    · next type ht =>
      obtain ⟨table, htable, hafter⟩ := bind_eq_ok_iff.1 hafter
      cases hafter
      exact h.addType (plain_insertAll (h name _ ht).2 (FieldDefinition.plain_of_table htable hd))
    · cases hafter
  | interface name implements fields =>
    rw [Schema.extend] at hafter
    split at hafter
    · next type ht =>
      obtain ⟨table, htable, hafter⟩ := bind_eq_ok_iff.1 hafter
      cases hafter
      exact h.addType (plain_insertAll (h name _ ht).2 (FieldDefinition.plain_of_table htable hd))
    · cases hafter
  | union name members =>
    rw [Schema.extend] at hafter
    split at hafter
    · cases hafter
      exact h.addType trivial
    · cases hafter
  | enum name values =>
    rw [Schema.extend] at hafter
    split at hafter
    · cases hafter
      exact h.addType trivial
    · cases hafter
  | input name fields =>
    rw [Schema.extend] at hafter
    split at hafter
    · obtain ⟨table, ht, hafter⟩ := bind_eq_ok_iff.1 hafter
      cases hafter
      exact h.addType trivial
    · cases hafter
  | scalar name =>
    cases hafter
    exact h
  | directive name =>
    cases hafter
    exact h

theorem addDefaultRoot (h : schema.WellFormed) (kind : OperationKind) :
    (schema.addDefaultRoot kind).WellFormed := by
  unfold Schema.addDefaultRoot
  split
  · exact h.addRoots _
  · exact h

theorem ofItems {items : List (SchemaItem Syntax.Value)}
    (hi : ∀ i ∈ items, i.declaration.Plain) (h : ofItems items = .ok schema) :
    schema.WellFormed := by
  obtain ⟨defined, hdefined, h⟩ := bind_eq_ok_iff.1 h
  obtain ⟨extended, hextended, h⟩ := bind_eq_ok_iff.1 h
  have hd : defined.WellFormed := by
    refine foldlM_induction (P := WellFormed) (fun i hmem s s' hs hs' => ?_) builtin hdefined
    exact hs.define (hi i (List.mem_of_mem_filter hmem)) hs'
  have he : extended.WellFormed := by
    refine foldlM_induction (P := WellFormed) (fun i hmem s s' hs hs' => ?_) hd hextended
    exact hs.extend (hi i (List.mem_of_mem_filter hmem)) hs'
  cases h
  exact ((he.addDefaultRoot _).addDefaultRoot _).addDefaultRoot _

theorem registerResolver {after : Schema} {typeName fieldName : String} {r : Resolver}
    (h : schema.WellFormed) (hafter : schema.registerResolver typeName fieldName r = .ok after) :
    after.WellFormed := by
  unfold Schema.registerResolver at hafter
  split at hafter
  · next type ht =>
    split at hafter
    · cases hafter
      intro name d hd
      rw [type?, Entries.get?_modify] at hd
      split at hd
      · next hname =>
        subst hname
        rw [← type?, ht, Option.map_some] at hd
        cases hd
        refine ⟨(h name _ ht).1, fun e he => ?_⟩
        rcases Entries.mem_modify he with he | ⟨f, hf, rfl⟩
        · exact (h name _ ht).2 e he
        · exact (h name _ ht).2 (fieldName, f) hf
      · exact h name d hd
    · cases hafter
  · cases hafter
  · cases hafter

theorem registerTypeResolver {after : Schema} {typeName : String} {r : TypeResolver}
    (h : schema.WellFormed) (hafter : schema.registerTypeResolver typeName r = .ok after) :
    after.WellFormed := by
  unfold Schema.registerTypeResolver at hafter
  split at hafter
  · split at hafter
    · cases hafter
      exact h
    · cases hafter
  · cases hafter

end WellFormed

theorem wellFormed_of_parse {text : String} {schema : Schema} (h : parse text = .ok schema) :
    schema.WellFormed := by
  unfold parse at h
  split at h
  · next items hitems =>
    obtain ⟨tokens, htokens, -⟩ := bind_eq_ok_iff.1 hitems
    have hsound := Syntax.Item.sound_of_parse (K := fun _ => True) htokens
      (fun _ _ _ _ => trivial) hitems
    refine .ofItems (fun i hi => ?_) h
    obtain ⟨item, hmem, hschema⟩ := List.mem_filterMap.1 hi
    cases item with
    | executable d => cases hschema
    | schema item =>
      cases hschema
      exact hsound _ hmem
  · cases h

theorem Loaded.wellFormed {schema : Schema} (h : schema.Loaded) : schema.WellFormed := by
  induction h with
  | parse h => exact wellFormed_of_parse h
  | resolver _ h ih => exact ih.registerResolver h
  | typeResolver _ h ih => exact ih.registerTypeResolver h

/-- A schema with one object type, of whose two fields one is nullable. -/
def small (resolver : Option Resolver) : Schema where
  types := builtin.types ++ [("Query", .object ⟨"Query", [],
    [("a", ⟨"a", .int, [], resolver⟩), ("b", ⟨"b", .nonNull .int, [], none⟩)]⟩)]
  roots := ⟨some "Query", none, none⟩
  typeResolvers := []

/-- Whether what was read of a text is the declaration of the small schema. -/
def declaresSmall : Except Syntax.SyntaxError (List Syntax.Item) → Bool
  | .ok [.schema ⟨false, .object "Query" [] [⟨"a", .int, []⟩, ⟨"b", .nonNull .int, []⟩]⟩] => true
  | _ => false

theorem parse_small : parse "type Query{a:Int b:Int!}" = .ok (small none) := by
  have hread : declaresSmall (Syntax.Item.parse "type Query{a:Int b:Int!}") = true := by
    decide +kernel
  unfold declaresSmall at hread
  split at hread
  · next hitems =>
    rw [parse, hitems]
    rfl
  · cases hread

theorem loaded_small (resolver : Resolver) : (small (some resolver)).Loaded :=
  .resolver (.parse parse_small)
    (rfl : (small none).registerResolver "Query" "a" resolver = .ok (small (some resolver)))

end Schema

end GraphQL
