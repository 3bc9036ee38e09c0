import GraphQL.Coercion.Arguments
import GraphQL.Coercion.Output
import GraphQL.Coercion.Variables
import GraphQL.Proofs.Entries
import GraphQL.Proofs.Schema.Types

/-!
Schemas without what their resolvers answer.

A bare schema still tells which fields have resolvers. All that is looked up in a schema and all
coercion depends on nothing else, so schemas with one bare schema are alike but for answers.
-/

set_option autoImplicit false

namespace GraphQL

open Json

/-- Changes nothing but what is in the definitions of object and interface types. -/
structure TypeDefinition.KeepsInputs (f : TypeDefinition → TypeDefinition) : Prop where
  scalar : ∀ name, f (.scalar name) = .scalar name
  object : ∀ type, ∃ type', f (.object type) = .object type'
  interface : ∀ type, ∃ type', f (.interface type) = .interface type'
  union : ∀ type, f (.union type) = .union type
  enum : ∀ type, f (.enum type) = .enum type
  input : ∀ type, f (.input type) = .input type

namespace Schema

section

variable {schema schema' : Schema} {f : TypeDefinition → TypeDefinition}
  (hf : TypeDefinition.KeepsInputs f) (h : schema'.types = schema.types.map (Prod.map id f))

include h

theorem type?_mapTypes (name : String) : schema'.type? name = (schema.type? name).map f := by
  rw [type?, h]
  exact Entries.get?_map f name schema.types

include hf

theorem coerceNamedInput_mapTypes (room : Nat) (name : String) (value : Value) :
    schema'.coerceNamedInput room name value = schema.coerceNamedInput room name value := by
  induction room generalizing name value with
  | zero =>
    rw [coerceNamedInput, coerceNamedInput, type?_mapTypes h]
    cases schema.type? name with
    | none => rfl
    | some d =>
      cases d with
      | object type =>
        obtain ⟨_, ht⟩ := hf.object type
        simp only [Option.map_some, ht]
      | interface type =>
        obtain ⟨_, ht⟩ := hf.interface type
        simp only [Option.map_some, ht]
      | _ => simp only [Option.map_some, hf.scalar, hf.union, hf.enum, hf.input]
  | succ room ih =>
    have hnamed : schema'.coerceNamedInput room = schema.coerceNamedInput room :=
      funext fun name => funext (ih name)
    rw [coerceNamedInput, coerceNamedInput, type?_mapTypes h]
    cases schema.type? name with
    | none => rfl
    | some d =>
      cases d with
      | object type =>
        obtain ⟨_, ht⟩ := hf.object type
        simp only [Option.map_some, ht]
      | interface type =>
        obtain ⟨_, ht⟩ := hf.interface type
        simp only [Option.map_some, ht]
      | _ => simp only [Option.map_some, hf.scalar, hf.union, hf.enum, hf.input, hnamed]

theorem defaultDepth_mapTypes : schema'.defaultDepth = schema.defaultDepth := by
  rw [defaultDepth, defaultDepth, h]
  induction schema.types with
  | nil => rfl
  | cons e types ih =>
    obtain ⟨name, d⟩ := e
    rw [List.map_cons]
    cases d with
    | object type =>
      obtain ⟨_, ht⟩ := hf.object type
      simpa only [Prod.map, ht, TypeDefinition.defaultsDepth] using ih
    | interface type =>
      obtain ⟨_, ht⟩ := hf.interface type
      simpa only [Prod.map, ht, TypeDefinition.defaultsDepth] using ih
    | _ =>
      simp only [Prod.map, hf.scalar, hf.union, hf.enum, hf.input, TypeDefinition.defaultsDepth, ih]

theorem coerceInput_mapTypes (type : TypeRef) (value : Value) :
    type.coerceInput schema' value = type.coerceInput schema value := by
  have hnamed : schema'.coerceNamedInput (value.depth + schema.defaultDepth + 1) =
      schema.coerceNamedInput (value.depth + schema.defaultDepth + 1) :=
    funext fun name => funext (coerceNamedInput_mapTypes hf h _ name)
  rw [TypeRef.coerceInput, TypeRef.coerceInput, defaultDepth_mapTypes hf h, hnamed]

/-- The values of variables depend on the input types only. -/
theorem coerceVariables_mapTypes (definitions : List (VariableDefinition Literal))
    (provided : Entries Value) :
    coerceVariables schema' definitions provided =
      coerceVariables schema definitions provided := by
  have hcoerce : ∀ d : VariableDefinition Literal,
      d.coerce schema' provided = d.coerce schema provided := by
    intro d
    rw [VariableDefinition.coerce, VariableDefinition.coerce]
    simp only [coerceInput_mapTypes hf h]
  rw [coerceVariables, coerceVariables]
  simp only [hcoerce]

end

end Schema

/-- Stands in a bare schema for every resolver. -/
def Resolver.blank : Resolver := ⟨0, fun _ c => (.value .null, c.entries)⟩

def FieldDefinition.bare (d : FieldDefinition) : FieldDefinition :=
  { d with resolver := d.resolver.map fun _ => .blank }

def ObjectType.bare (type : ObjectType) : ObjectType :=
  { type with fields := type.fields.map (Prod.map id FieldDefinition.bare) }

def InterfaceType.bare (type : InterfaceType) : InterfaceType :=
  { type with fields := type.fields.map (Prod.map id FieldDefinition.bare) }

def TypeDefinition.bare : TypeDefinition → TypeDefinition
  | object type => object type.bare
  | interface type => interface type.bare
  | d => d

theorem TypeDefinition.isLeaf_bare (d : TypeDefinition) : d.bare.isLeaf = d.isLeaf := by
  cases d <;> rfl

theorem TypeDefinition.isAbstract_bare (d : TypeDefinition) :
    d.bare.isAbstract = d.isAbstract := by
  cases d <;> rfl

def Schema.bare (schema : Schema) : Schema :=
  { schema with types := schema.types.map (Prod.map id TypeDefinition.bare) }

namespace Schema

variable (schema : Schema)

theorem type?_bare (name : String) :
    schema.bare.type? name = (schema.type? name).map TypeDefinition.bare :=
  Entries.get?_map TypeDefinition.bare name schema.types

theorem objectType?_bare (name : String) :
    schema.bare.objectType? name = (schema.objectType? name).map ObjectType.bare := by
  rw [objectType?, objectType?, type?_bare]
  cases schema.type? name with
  | none => rfl
  | some d => cases d <;> rfl

theorem isPossibleType_bare (abstractType objectType : String) :
    schema.bare.isPossibleType abstractType objectType =
      schema.isPossibleType abstractType objectType := by
  rw [isPossibleType, isPossibleType, type?_bare, objectType?_bare]
  cases schema.type? abstractType with
  | none => rfl
  | some d =>
    cases d with
    | interface type => cases schema.objectType? objectType <;> rfl
    | _ => rfl

theorem applies_bare (objectType condition : String) :
    schema.bare.applies objectType condition = schema.applies objectType condition := by
  rw [applies, applies, isPossibleType_bare]

theorem concreteType?_bare (name : String) (value : Value) :
    schema.bare.concreteType? name value =
      (schema.concreteType? name value).map ObjectType.bare := by
  have hclaimed : schema.bare.claimedType? name value = schema.claimedType? name value := rfl
  have hpossible : schema.bare.isPossibleType name = schema.isPossibleType name :=
    funext (schema.isPossibleType_bare name)
  rw [concreteType?, concreteType?, hclaimed, hpossible, Option.map_bind]
  exact congrArg _ (funext schema.objectType?_bare)

theorem coerceOutput_bare (type : TypeRef) (value : Value) :
    type.coerceOutput schema.bare value = type.coerceOutput schema value := by
  cases type with
  | named name =>
    rw [TypeRef.coerceOutput, TypeRef.coerceOutput, type?_bare]
    cases schema.type? name with
    | none => rfl
    | some d => cases d <;> rfl
  | id =>
    cases value with
    | number n => cases n <;> rfl
    | _ => rfl
  | _ => cases value <;> rfl

theorem keepsInputs_bare : TypeDefinition.KeepsInputs TypeDefinition.bare where
  scalar _ := rfl
  object type := ⟨type.bare, rfl⟩
  interface type := ⟨type.bare, rfl⟩
  union _ := rfl
  enum _ := rfl
  input _ := rfl

theorem coerceInput_bare (type : TypeRef) (value : Value) :
    type.coerceInput schema.bare value = type.coerceInput schema value :=
  coerceInput_mapTypes keepsInputs_bare rfl type value

theorem coerceDefined_bare (bindings : Entries Value) (given : List (Argument Literal))
    (definitions : Entries (InputValue Literal)) :
    coerceDefined schema.bare bindings given definitions =
      coerceDefined schema bindings given definitions := by
  induction definitions with
  | nil => rfl
  | cons e definitions ih =>
    obtain ⟨name, d⟩ := e
    rw [coerceDefined, coerceDefined]
    simp only [coerceInput_bare, ih]

theorem coerceArguments_bare (d : FieldDefinition) (bindings : Entries Value)
    (given : List (Argument Literal)) :
    d.bare.coerceArguments schema.bare bindings given =
      d.coerceArguments schema bindings given := by
  rw [FieldDefinition.coerceArguments, FieldDefinition.coerceArguments]
  simp only [FieldDefinition.bare, coerceDefined_bare]

theorem coerceVariables_bare (definitions : List (VariableDefinition Literal))
    (provided : Entries Value) :
    coerceVariables schema.bare definitions provided =
      coerceVariables schema definitions provided :=
  coerceVariables_mapTypes keepsInputs_bare rfl definitions provided

end Schema

/-! Things that differ in resolvers only, where the resolvers in the same place are related. -/

section

variable {A : Resolver → Resolver → Prop}

structure FieldDefinition.Alike (A : Resolver → Resolver → Prop) (d d' : FieldDefinition) :
    Prop where
  bare_eq : d.bare = d'.bare
  resolver : ∀ r r', d.resolver = some r → d'.resolver = some r' → A r r'

structure ObjectType.Alike (A : Resolver → Resolver → Prop) (type type' : ObjectType) : Prop where
  bare_eq : type.bare = type'.bare
  resolver : ∀ field d d' r r', Entries.get? field type.fields = some d →
    Entries.get? field type'.fields = some d' → d.resolver = some r → d'.resolver = some r' → A r r'

structure Schema.Alike (A : Resolver → Resolver → Prop) (schema schema' : Schema) : Prop where
  bare_eq : schema.bare = schema'.bare
  resolver : ∀ name type type', schema.type? name = some (.object type) →
    schema'.type? name = some (.object type') → ∀ field d d' r r',
    Entries.get? field type.fields = some d → Entries.get? field type'.fields = some d' →
    d.resolver = some r → d'.resolver = some r' → A r r'

theorem ObjectType.Alike.refl (hA : ∀ r, A r r) (type : ObjectType) : type.Alike A type := by
  refine ⟨rfl, fun field d d' r r' hd hd' hr hr' => ?_⟩
  cases hd.symm.trans hd'
  cases hr.symm.trans hr'
  exact hA r

theorem Schema.Alike.refl (hA : ∀ r, A r r) (schema : Schema) : schema.Alike A schema := by
  refine ⟨rfl, fun name type type' ht ht' => ?_⟩
  cases ht.symm.trans ht'
  exact (ObjectType.Alike.refl hA type).resolver

theorem Schema.Alike.mono {B : Resolver → Resolver → Prop} {schema schema' : Schema}
    (h : schema.Alike A schema') (hAB : ∀ r r', A r r' → B r r') : schema.Alike B schema' :=
  ⟨h.bare_eq, fun name type type' ht ht' field d d' r r' hd hd' hr hr' =>
    hAB r r' (h.resolver name type type' ht ht' field d d' r r' hd hd' hr hr')⟩

theorem exists_of_map_eq {α β : Type} {f : α → β} {x y : Option α} (h : x.map f = y.map f)
    {a : α} (hx : x = some a) : ∃ b, y = some b ∧ f a = f b := by
  subst hx
  obtain ⟨b, hb, hab⟩ := Option.map_eq_some_iff.1 h.symm
  exact ⟨b, hb, hab.symm⟩

namespace FieldDefinition.Alike

variable {d d' : FieldDefinition}

theorem type_eq (h : d.Alike A d') : d.type = d'.type := by
  have htype := congrArg FieldDefinition.type h.bare_eq
  exact htype

theorem exists_resolver (h : d.Alike A d') {r : Resolver} (hr : d.resolver = some r) :
    ∃ r', d'.resolver = some r' ∧ A r r' := by
  obtain ⟨r', hr', -⟩ := exists_of_map_eq (congrArg FieldDefinition.resolver h.bare_eq) hr
  exact ⟨r', hr', h.resolver r r' hr hr'⟩

theorem resolver_eq_none (h : d.Alike A d') (hr : d.resolver = none) : d'.resolver = none := by
  have hmap : d'.resolver.map (fun _ => Resolver.blank) = none :=
    (congrArg FieldDefinition.resolver h.bare_eq).symm.trans (by simp [FieldDefinition.bare, hr])
  exact Option.map_eq_none_iff.1 hmap

end FieldDefinition.Alike

namespace ObjectType.Alike

variable {type type' : ObjectType}

theorem name_eq (h : type.Alike A type') : type.name = type'.name := by
  have hname := congrArg ObjectType.name h.bare_eq
  exact hname

theorem map_get?_eq (h : type.Alike A type') (field : String) :
    (Entries.get? field type.fields).map FieldDefinition.bare =
      (Entries.get? field type'.fields).map FieldDefinition.bare := by
  rw [← Entries.get?_map, ← Entries.get?_map]
  exact congrArg (fun t => Entries.get? field t.fields) h.bare_eq

theorem get?_eq_none (h : type.Alike A type') {field : String}
    (hn : Entries.get? field type.fields = none) : Entries.get? field type'.fields = none := by
  have hmap := h.map_get?_eq field
  rw [hn] at hmap
  exact Option.map_eq_none_iff.1 hmap.symm

theorem exists_get? (h : type.Alike A type') {field : String} {d : FieldDefinition}
    (hd : Entries.get? field type.fields = some d) :
    ∃ d', Entries.get? field type'.fields = some d' ∧ d.Alike A d' := by
  obtain ⟨d', hd', hbare⟩ := exists_of_map_eq (h.map_get?_eq field) hd
  exact ⟨d', hd', hbare, fun r r' => h.resolver field d d' r r' hd hd'⟩

end ObjectType.Alike

namespace Schema.Alike

variable {schema schema' : Schema}

theorem type?_eq_none (h : schema.Alike A schema') {name : String}
    (hn : schema.type? name = none) : schema'.type? name = none := by
  have hmap := congrArg (·.type? name) h.bare_eq
  simp only [type?_bare, hn, Option.map_none] at hmap
  exact Option.map_eq_none_iff.1 hmap.symm

theorem exists_type? (h : schema.Alike A schema') {name : String} {d : TypeDefinition}
    (hd : schema.type? name = some d) :
    ∃ d', schema'.type? name = some d' ∧ d.bare = d'.bare := by
  have hmap := congrArg (·.type? name) h.bare_eq
  simp only [type?_bare] at hmap
  exact exists_of_map_eq hmap hd

theorem exists_object (h : schema.Alike A schema') {name : String} {type : ObjectType}
    (ht : schema.type? name = some (.object type)) :
    ∃ type', schema'.type? name = some (.object type') ∧ type.Alike A type' := by
  obtain ⟨d', hd', hbare⟩ := h.exists_type? ht
  cases d' with
  | object type' =>
    exact ⟨type', hd', TypeDefinition.object.inj hbare, h.resolver name type type' ht hd'⟩
  | _ => cases hbare

theorem exists_abstract (h : schema.Alike A schema') {name : String} {d : TypeDefinition}
    (hd : schema.type? name = some d) (ha : d.isAbstract = true) :
    ∃ d', schema'.type? name = some d' ∧ d'.isAbstract = true := by
  obtain ⟨d', hd', hbare⟩ := h.exists_type? hd
  refine ⟨d', hd', ?_⟩
  rw [← TypeDefinition.isAbstract_bare, ← hbare, TypeDefinition.isAbstract_bare, ha]

/-- A name that stands for nothing that can be put out does so in both. -/
theorem eq_input (h : schema.Alike A schema') {name : String}
    (hinput : ∀ d, schema.type? name = some d → ∃ type, d = .input type) :
    ∀ d, schema'.type? name = some d → ∃ type, d = .input type := by
  intro d' hd'
  cases hd : schema.type? name with
  | none =>
    rw [h.type?_eq_none hd] at hd'
    cases hd'
  | some d =>
    obtain ⟨d'', hd'', hbare⟩ := h.exists_type? hd
    cases hd''.symm.trans hd'
    obtain ⟨type, rfl⟩ := hinput d hd
    cases d' with
    | input type' => exact ⟨type', rfl⟩
    | _ => cases hbare

theorem coerceOutput_eq (h : schema.Alike A schema') (type : TypeRef) (value : Value) :
    type.coerceOutput schema value = type.coerceOutput schema' value := by
  rw [← coerceOutput_bare, h.bare_eq, coerceOutput_bare]

theorem exists_concrete (h : schema.Alike A schema') {name : String} {value : Value}
    {type : ObjectType} (ht : schema.concreteType? name value = some type) :
    ∃ type', schema'.concreteType? name value = some type' ∧ type.Alike A type' := by
  have hclaimed : schema.claimedType? name value = schema'.claimedType? name value :=
    congrArg (·.claimedType? name value) h.bare_eq
  have hpossible : schema.isPossibleType name = schema'.isPossibleType name := by
    funext claimed
    rw [← isPossibleType_bare, h.bare_eq, isPossibleType_bare]
  obtain ⟨claimed, hc, hp, ht⟩ := exists_of_concreteType? ht
  obtain ⟨type', ht', halike⟩ := h.exists_object ht
  refine ⟨type', ?_, halike⟩
  rw [concreteType?, ← hclaimed, ← hpossible, hc, Option.filter_some, if_pos hp, Option.bind_some,
    objectType?, ht']

theorem rootType_alike (h : schema.Alike A schema') {kind : OperationKind} {type type' : ObjectType}
    (ht : schema.rootType? kind = some type) (ht' : schema'.rootType? kind = some type') :
    type.Alike A type' := by
  have hbare : schema.bare.roots = schema'.bare.roots := congrArg Schema.roots h.bare_eq
  have hroots : schema.roots = schema'.roots := hbare
  obtain ⟨name, hn, ht⟩ := Option.bind_eq_some_iff.1 ht
  obtain ⟨name', hn', ht'⟩ := Option.bind_eq_some_iff.1 ht'
  rw [← hroots, hn] at hn'
  cases hn'
  obtain ⟨type'', ht'', halike⟩ := h.exists_object (type?_of_objectType? ht)
  cases ht''.symm.trans (type?_of_objectType? ht')
  exact halike

theorem concreteType?_eq_none (h : schema.Alike A schema') {name : String} {value : Value}
    (hn : schema.concreteType? name value = none) : schema'.concreteType? name value = none := by
  have hmap : schema.bare.concreteType? name value = schema'.bare.concreteType? name value := by
    rw [h.bare_eq]
  rw [concreteType?_bare, concreteType?_bare, hn] at hmap
  exact Option.map_eq_none_iff.1 hmap.symm

end Schema.Alike

end

end GraphQL
