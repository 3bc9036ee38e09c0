import GraphQL.Proofs.Schema.Extensions
import GraphQL.Proofs.Schema.Registration
import GraphQL.Resolver.Stock

/-!
Schemas in which resolvers were registered.

However often and however successfully resolvers are registered with the schema of a text, what is
in it stands under its own name (`Schema.Represented`), and only resolvers change. Of the accepted
registrations for a field the last one counts.
-/

set_option autoImplicit false

namespace GraphQL

namespace Entries

variable {α β : Type} {name : α → String} {m m' : Entries α}

/-- Values under their own names. -/
def Named (name : α → String) (m : Entries α) : Prop :=
  (keys m).Nodup ∧ ∀ e ∈ m, name e.2 = e.1

theorem Lists.named {values : List α} (h : Lists name values m) : Named name m := by
  refine ⟨h.nodup, fun e he => ?_⟩
  have hget := (h.get?_eq e.1).symm.trans (get?_of_mem h.nodup he)
  have hmem := List.mem_of_getLast? hget
  exact of_decide_eq_true (List.mem_filter.1 hmem).2

theorem Named.modify (h : Named name m) {key : String} {f : α → α}
    (hf : ∀ a, name a = key → name (f a) = key) : Named name (modify key f m) := by
  refine ⟨by rw [keys_modify]; exact h.1, fun e he => ?_⟩
  rcases mem_modify he with he | ⟨a, ha, rfl⟩
  · exact h.2 e he
  · exact hf a (h.2 _ ha)

theorem Lists.mem {values : List α} (h : Lists name values m) {e : String × α} (he : e ∈ m) :
    e.2 ∈ values := by
  have hget := (h.get?_eq e.1).symm.trans (get?_of_mem h.nodup he)
  exact List.mem_of_mem_filter (List.mem_of_getLast? hget)

theorem map_modify_of_eq {key : String} {f : α → α} {g : α → β}
    (h : ∀ a, get? key m = some a → g (f a) = g a) :
    (modify key f m).map (Prod.map id g) = m.map (Prod.map id g) := by
  induction m with
  | nil => rfl
  | cons e m ih =>
    obtain ⟨k, v⟩ := e
    rw [modify]
    split
    · next hk => simp [h v (if_pos hk)]
    · next hk => simp only [List.map_cons, ih fun a ha => h a ((if_neg hk).trans ha)]

end Entries

/-- Fields and their arguments stand under their own names. -/
def FieldDefinition.AllNamed (fields : Entries FieldDefinition) : Prop :=
  fields.Named FieldDefinition.name ∧ ∀ e ∈ fields, e.2.arguments.Named InputValue.name

/-- What is in a type stands under its own name, and fields of interfaces have no resolvers. -/
def TypeDefinition.Represented : TypeDefinition → Prop
  | .object type => FieldDefinition.AllNamed type.fields
  | .interface type =>
    FieldDefinition.AllNamed type.fields ∧ ∀ e ∈ type.fields, e.2.resolver = none
  | .input type => type.fields.Named InputValue.name
  | _ => True

theorem FieldDeclaration.named_of_read {f : FieldDeclaration Syntax.Value} {d : FieldDefinition}
    (h : f.read = .ok d) : d.arguments.Named InputValue.name ∧ d.resolver = none := by
  obtain ⟨arguments, harguments, h⟩ := bind_eq_ok_iff.1 h
  cases h
  obtain ⟨_, -, hlists⟩ := InputValue.listsRead_of_table harguments
  exact ⟨hlists.named, rfl⟩

/-- Fields as they are read have no resolvers. -/
theorem FieldDefinition.allNamed_of_listsRead {declarations : List (FieldDeclaration Syntax.Value)}
    {fields : Entries FieldDefinition}
    (h : fields.ListsRead FieldDeclaration.read FieldDefinition.name declarations) :
    AllNamed fields ∧ ∀ e ∈ fields, e.2.resolver = none := by
  obtain ⟨definitions, hread, hlists⟩ := h
  have hfield : ∀ e ∈ fields, e.2.arguments.Named InputValue.name ∧ e.2.resolver = none := by
    intro e he
    obtain ⟨f, -, hf⟩ := exists_of_mem_mapM hread (hlists.mem he)
    exact FieldDeclaration.named_of_read hf
  exact ⟨⟨hlists.named, fun e he => (hfield e he).1⟩, fun e he => (hfield e he).2⟩

theorem TypeDefinition.Lists.represented {name : String} {t : TypeDefinition}
    {declarations : List (Declaration Syntax.Value)} (h : t.Lists name declarations) :
    t.Represented := by
  cases h with
  | scalar | union | enum => trivial
  | object _ _ _ _ hfields => exact (FieldDefinition.allNamed_of_listsRead hfields).1
  | interface _ _ _ _ hfields => exact FieldDefinition.allNamed_of_listsRead hfields
  | input _ _ _ hfields => exact hfields.elim fun _ h => h.2.named

theorem TypeDefinition.Lists.resolver_eq_none {name : String} {type : ObjectType}
    {declarations : List (Declaration Syntax.Value)}
    (h : TypeDefinition.Lists name declarations (.object type)) :
    ∀ e ∈ type.fields, e.2.resolver = none := by
  cases h with
  | object _ _ _ _ hfields => exact (FieldDefinition.allNamed_of_listsRead hfields).2

theorem FieldDefinition.register_of_resolver_eq_none {d : FieldDefinition} (h : d.resolver = none)
    (type : String) : d.register (fun _ _ => none) type = d := by
  rw [register, ← h]

namespace TypeDefinition.Represented

theorem interface_register {type : InterfaceType} (h : (interface type).Represented) :
    type.register (fun _ _ => none) = type := by
  have hfields : type.fields.map
      (Prod.map id (FieldDefinition.register (fun _ _ => none) type.name)) = type.fields := by
    refine (List.map_congr_left fun e he => ?_).trans type.fields.map_id
    exact Prod.ext rfl (FieldDefinition.register_of_resolver_eq_none (h.2 e he) type.name)
  rw [InterfaceType.register, hfields]

/-- Only object types can differ in resolvers. -/
theorem eq_of_register {d d' : TypeDefinition} (h : d.Represented) (h' : d'.Represented)
    (heq : d.register (fun _ _ => none) = d'.register fun _ _ => none) :
    d = d' ∨ ∃ type type', d = .object type ∧ d' = .object type' ∧
      type.register (fun _ _ => none) = type'.register fun _ _ => none := by
  cases d with
  | object type =>
    cases d' with
    | object type' => exact .inr ⟨type, type', rfl, rfl, TypeDefinition.object.inj heq⟩
    | _ => cases heq
  | interface type =>
    cases d' with
    | interface type' =>
      have hsame := TypeDefinition.interface.inj heq
      rw [h.interface_register, h'.interface_register] at hsame
      exact .inl (congrArg interface hsame)
    | _ => cases heq
  | _ =>
    cases d' with
    | object type' => cases heq
    | interface type' => cases heq
    | _ => exact .inl heq

/-- Object types that differ in no resolver either are the same. -/
theorem eq_of_resolvers {type type' : ObjectType} (h : (object type).Represented)
    (heq : type.register (fun _ _ => none) = type'.register fun _ _ => none)
    (hresolver : ∀ name, (Entries.get? name type.fields).bind FieldDefinition.resolver =
      (Entries.get? name type'.fields).bind FieldDefinition.resolver) : type = type' := by
  obtain ⟨typeName, implements, fields⟩ := type
  obtain ⟨typeName', implements', fields'⟩ := type'
  obtain ⟨rfl, rfl, hfields⟩ := ObjectType.mk.inj heq
  have hsame : fields = fields' := by
    refine Entries.ext_map h.1.1 hfields fun name f f' hf hf' hff => ?_
    have hresolver := hresolver name
    rw [hf, hf', Option.bind_some, Option.bind_some] at hresolver
    obtain ⟨name, type, arguments, r⟩ := f
    obtain ⟨name', type', arguments', r'⟩ := f'
    cases hresolver
    cases hff
    rfl
  rw [hsame]

end TypeDefinition.Represented

/-- Gives a field or an abstract type its resolver. -/
inductive Registration where
  | field (typeName fieldName : String) (resolver : Resolver)
  | type (typeName : String) (resolver : TypeResolver)

namespace Registration

/-- The resolver that a field is given. -/
def resolver? (typeName fieldName : String) : Registration → Option Resolver
  | field t f r => if t = typeName ∧ f = fieldName then some r else none
  | type _ _ => none

/-- The resolver that an abstract type is given. -/
def typeResolver? (typeName : String) : Registration → Option TypeResolver
  | field _ _ _ => none
  | type t r => if t = typeName then some r else none

end Registration

/-- The type with the resolver of one of its fields replaced. -/
def ObjectType.give (type : ObjectType) (fieldName : String) (r : Resolver) : ObjectType :=
  { type with
    fields := Entries.modify fieldName (fun f => { f with resolver := some r }) type.fields }

theorem FieldDefinition.AllNamed.give {type : ObjectType}
    (h : FieldDefinition.AllNamed type.fields) (fieldName : String) (r : Resolver) :
    FieldDefinition.AllNamed (type.give fieldName r).fields := by
  refine ⟨h.1.modify fun _ ha => ha, fun e he => ?_⟩
  rcases Entries.mem_modify he with he | ⟨f, hf, rfl⟩
  · exact h.2 e he
  · exact h.2 (fieldName, f) hf

namespace Schema

/-- Registers a resolver, which may fail. -/
def attempt (schema : Schema) : Registration → Except SpecError Schema
  | .field typeName fieldName resolver => schema.registerResolver typeName fieldName resolver
  | .type typeName resolver => schema.registerTypeResolver typeName resolver

/-- The schema that is there after a registration, whether it fails or not. -/
def settle (schema : Schema) (r : Registration) : Schema :=
  match schema.attempt r with
  | .ok after => after
  | .error _ => schema

def registerAll (schema : Schema) (registrations : List Registration) : Schema :=
  registrations.foldl settle schema

/-- The resolver of a field of an object type. -/
def resolver? (schema : Schema) (typeName fieldName : String) : Option Resolver :=
  ((schema.objectType? typeName).bind fun type => Entries.get? fieldName type.fields).bind
    FieldDefinition.resolver

/-- The schema without its resolvers. -/
def unresolved (schema : Schema) : Schema := schema.register (fun _ _ => none) []

/-- Types, and what is in them, stand under their own names, among them the built-in scalars. Only
fields of object types and abstract types have resolvers. -/
structure Represented (schema : Schema) : Prop where
  types : schema.types.Named TypeDefinition.name
  represented : ∀ e ∈ schema.types, e.2.Represented
  builtin : ∀ name ∈ TypeRef.builtinNames, name ∈ Entries.keys schema.types
  typeResolvers : ∀ e ∈ schema.typeResolvers,
    ∃ d, schema.type? e.1 = some d ∧ d.isAbstract = true

section Unresolved

variable {schema schema' : Schema}

theorem type?_unresolved (schema : Schema) (name : String) :
    schema.unresolved.type? name =
      (schema.type? name).map (TypeDefinition.register fun _ _ => none) :=
  type?_mapTypes rfl name

theorem objectType?_unresolved (schema : Schema) (name : String) :
    schema.unresolved.objectType? name =
      (schema.objectType? name).map (ObjectType.register fun _ _ => none) := by
  rw [objectType?, objectType?, type?_unresolved]
  cases schema.type? name with
  | none => rfl
  | some d => cases d <;> rfl

theorem isPossibleType_unresolved (schema : Schema) :
    schema.unresolved.isPossibleType = schema.isPossibleType := by
  funext abstractType objectType
  rw [isPossibleType, isPossibleType, type?_unresolved, objectType?_unresolved]
  cases schema.type? abstractType with
  | none => rfl
  | some d =>
    cases d with
    | interface type => cases schema.objectType? objectType <;> rfl
    | _ => rfl

theorem applies_unresolved (schema : Schema) : schema.unresolved.applies = schema.applies := by
  funext objectType condition
  rw [applies, applies, isPossibleType_unresolved]

end Unresolved

namespace Represented

variable {schema after : Schema}

theorem of_parse {text : String} (h : parse text = .ok schema) : schema.Represented := by
  obtain ⟨definitions, extensions, hlists⟩ := exists_lists_of_parse h
  have hnodup : (Entries.keys schema.types).Nodup := by
    rw [hlists.keys_eq]
    exact nodup_eraseDups _
  have hmem : ∀ e ∈ schema.types, schema.type? e.1 = some e.2 :=
    fun e he => Entries.get?_of_mem hnodup he
  refine ⟨⟨hnodup, fun e he => hlists.name_eq (hmem e he)⟩, fun e he => ?_, fun name hname => ?_,
    fun e he => ?_⟩
  · exact (hlists.exists_lists (hmem e he)).elim fun _ h => h.represented
  · rw [hlists.keys_eq, List.mem_eraseDups, List.filterMap_append]
    refine List.mem_append_left _ (List.mem_filterMap.2 ⟨.scalar name, ?_, rfl⟩)
    exact List.mem_map_of_mem hname
  · rw [hlists.typeResolvers_eq] at he
    cases he

theorem resolver?_of_parse {text : String} (h : parse text = .ok schema)
    (typeName fieldName : String) : schema.resolver? typeName fieldName = none := by
  obtain ⟨definitions, extensions, hlists⟩ := exists_lists_of_parse h
  by_contra hne
  obtain ⟨r, hr⟩ := Option.ne_none_iff_exists'.1 hne
  obtain ⟨field, hfield, hr⟩ := Option.bind_eq_some_iff.1 hr
  obtain ⟨type, htype, hfield⟩ := Option.bind_eq_some_iff.1 hfield
  obtain ⟨declarations, ht⟩ := hlists.exists_lists (type?_of_objectType? htype)
  rw [ht.resolver_eq_none _ (Entries.mem_of_get? hfield)] at hr
  cases hr

theorem typeResolvers_of_parse {text : String} (h : parse text = .ok schema) :
    schema.typeResolvers = [] := by
  obtain ⟨definitions, extensions, hlists⟩ := exists_lists_of_parse h
  exact hlists.typeResolvers_eq

/-- What a successful registration for a field finds and leaves. -/
theorem exists_of_registerResolver {typeName fieldName : String} {r : Resolver}
    (h : schema.registerResolver typeName fieldName r = .ok after) :
    ∃ type, schema.type? typeName = some (.object type) ∧
      Entries.contains fieldName type.fields = true ∧
      after = { schema with
        types := Entries.modify typeName (fun _ => .object (type.give fieldName r))
          schema.types } := by
  unfold Schema.registerResolver at h
  split at h
  · next type ht =>
    split at h
    · next hcontains =>
      cases h
      exact ⟨type, ht, hcontains, rfl⟩
    · cases h
  · cases h
  · cases h

theorem registerResolver {typeName fieldName : String} {r : Resolver} (h : schema.Represented)
    (hafter : schema.registerResolver typeName fieldName r = .ok after) : after.Represented := by
  obtain ⟨type, ht, -, rfl⟩ := exists_of_registerResolver hafter
  have hmem := Entries.mem_of_get? ht
  have hname : type.name = typeName := h.types.2 _ hmem
  have htypes : Entries.Named TypeDefinition.name
      (Entries.modify typeName (fun _ => .object (type.give fieldName r)) schema.types) :=
    h.types.modify fun _ _ => hname
  refine ⟨htypes, fun e he => ?_, fun name hn => ?_, fun e he => ?_⟩
  · rcases Entries.mem_modify he with he | ⟨_, -, rfl⟩
    · exact h.represented e he
    · exact FieldDefinition.AllNamed.give (h.represented _ hmem) fieldName r
  · rw [Entries.keys_modify]
    exact h.builtin name hn
  · obtain ⟨d, hd, habstract⟩ := h.typeResolvers e he
    refine ⟨d, ?_, habstract⟩
    rw [type?, Entries.get?_modify, if_neg]
    · exact hd
    · intro heq
      rw [heq, ht] at hd
      cases hd
      cases habstract

theorem registerTypeResolver {typeName : String} {r : TypeResolver} (h : schema.Represented)
    (hafter : schema.registerTypeResolver typeName r = .ok after) : after.Represented := by
  unfold Schema.registerTypeResolver at hafter
  split at hafter
  · next type ht =>
    split at hafter
    · next habstract =>
      cases hafter
      refine ⟨h.types, h.represented, h.builtin, fun e he => ?_⟩
      rcases Entries.mem_insert he with rfl | he
      · exact ⟨type, ht, habstract⟩
      · exact h.typeResolvers e he
    · cases hafter
  · cases hafter

end Represented

/-- A registration changes the resolver of its field or abstract type, and nothing else. -/
structure Registers (r : Registration) (schema after : Schema) : Prop where
  unresolved_eq : after.unresolved = schema.unresolved
  rootType?_eq : ∀ kind, (after.rootType? kind).map (ObjectType.register fun _ _ => none) =
    (schema.rootType? kind).map (ObjectType.register fun _ _ => none)
  isPossibleType_eq : after.isPossibleType = schema.isPossibleType
  applies_eq : after.applies = schema.applies
  resolver?_eq : ∀ typeName fieldName, after.resolver? typeName fieldName =
    (r.resolver? typeName fieldName).or (schema.resolver? typeName fieldName)
  typeResolver?_eq : ∀ typeName, Entries.get? typeName after.typeResolvers =
    (r.typeResolver? typeName).or (Entries.get? typeName schema.typeResolvers)

section Registers

variable {schema after : Schema}

theorem unresolved_registerResolver {typeName fieldName : String} {r : Resolver}
    (h : schema.registerResolver typeName fieldName r = .ok after) :
    after.unresolved = schema.unresolved := by
  obtain ⟨type, ht, -, rfl⟩ := Represented.exists_of_registerResolver h
  have hgive : (type.give fieldName r).register (fun _ _ => none) =
      type.register fun _ _ => none := by
    have hfields : (type.give fieldName r).fields.map
          (Prod.map id (FieldDefinition.register (fun _ _ => none) type.name)) =
        type.fields.map (Prod.map id (FieldDefinition.register (fun _ _ => none) type.name)) :=
      Entries.map_modify_of_eq fun _ _ => rfl
    rw [ObjectType.register, ObjectType.register, ← hfields]
    rfl
  have htypes : (Entries.modify typeName (fun _ => .object (type.give fieldName r))
        schema.types).map (Prod.map id (TypeDefinition.register fun _ _ => none)) =
      schema.types.map (Prod.map id (TypeDefinition.register fun _ _ => none)) := by
    refine Entries.map_modify_of_eq fun d hd => ?_
    cases hd.symm.trans ht
    exact congrArg TypeDefinition.object hgive
  rw [unresolved, unresolved, register, register, ← htypes]

theorem resolver?_registerResolver {typeName fieldName : String} {r : Resolver}
    (h : schema.registerResolver typeName fieldName r = .ok after) (t f : String) :
    after.resolver? t f =
      if typeName = t ∧ fieldName = f then some r else schema.resolver? t f := by
  obtain ⟨type, ht, hcontains, rfl⟩ := Represented.exists_of_registerResolver h
  obtain ⟨field, hfield⟩ := Option.isSome_iff_exists.1 hcontains
  rw [resolver?, resolver?, objectType?, objectType?, type?, Entries.get?_modify, ← type?]
  by_cases htype : t = typeName
  · subst htype
    by_cases hf : f = fieldName
    · subst hf
      simp [ht, ObjectType.give, Entries.get?_modify, hfield]
    · simp [ht, ObjectType.give, Entries.get?_modify, hf, Ne.symm hf]
  · simp [htype, Ne.symm htype]

/-- What does not depend on resolvers follows from the schemas without them. -/
theorem Registers.of_unresolved {r : Registration} (h : after.unresolved = schema.unresolved)
    (hresolver : ∀ typeName fieldName, after.resolver? typeName fieldName =
      (r.resolver? typeName fieldName).or (schema.resolver? typeName fieldName))
    (htype : ∀ typeName, Entries.get? typeName after.typeResolvers =
      (r.typeResolver? typeName).or (Entries.get? typeName schema.typeResolvers)) :
    Registers r schema after where
  unresolved_eq := h
  rootType?_eq kind := by
    rw [← rootType?_register _ [], ← rootType?_register _ []]
    exact congrArg (·.rootType? kind) h
  isPossibleType_eq := by rw [← isPossibleType_unresolved, h, isPossibleType_unresolved]
  applies_eq := by rw [← applies_unresolved, h, applies_unresolved]
  resolver?_eq := hresolver
  typeResolver?_eq := htype

theorem registers_of_registerTypeResolver {typeName : String} {r : TypeResolver}
    (h : schema.registerTypeResolver typeName r = .ok after) :
    Registers (.type typeName r) schema after := by
  unfold registerTypeResolver at h
  split at h
  · split at h
    · cases h
      refine .of_unresolved rfl (fun _ _ => rfl) fun t => ?_
      rw [Entries.get?_insert, Registration.typeResolver?]
      by_cases ht : t = typeName
      · simp [ht]
      · simp [ht, Ne.symm ht]
    · cases h
  · cases h

theorem registers_of_attempt {r : Registration} (h : schema.attempt r = .ok after) :
    Registers r schema after := by
  cases r with
  | field typeName fieldName r =>
    refine .of_unresolved (unresolved_registerResolver h) (fun t f => ?_) fun t => ?_
    · rw [resolver?_registerResolver h, Registration.resolver?]
      split <;> rfl
    · obtain ⟨type, -, -, rfl⟩ := Represented.exists_of_registerResolver h
      rfl
  | type typeName r => exact registers_of_registerTypeResolver h

theorem attempt_unresolved (schema : Schema) (r : Registration) :
    (schema.unresolved.attempt r).map (fun _ => ()) = (schema.attempt r).map fun _ => () := by
  cases r with
  | field typeName fieldName r =>
    rw [attempt, attempt, registerResolver, registerResolver, type?_unresolved]
    cases schema.type? typeName with
    | none => rfl
    | some d =>
      cases d with
      | object type =>
        have hcontains : Entries.contains fieldName (type.register fun _ _ => none).fields =
            Entries.contains fieldName type.fields := by
          rw [Entries.contains, Entries.contains]
          exact (congrArg _ (Entries.get?_map _ _ _)).trans Option.isSome_map
        simp only [Option.map_some, TypeDefinition.register, hcontains]
        split <;> rfl
      | _ => rfl
  | type typeName r =>
    rw [attempt, attempt, registerTypeResolver, registerTypeResolver, type?_unresolved]
    cases schema.type? typeName with
    | none => rfl
    | some d => cases d <;> rfl

/-- Whether a registration fails, and how, does not depend on resolvers. -/
theorem attempt_congr {schema' : Schema} (h : schema.unresolved = schema'.unresolved)
    (r : Registration) :
    (schema.attempt r).map (fun _ => ()) = (schema'.attempt r).map fun _ => () := by
  rw [← attempt_unresolved, h, attempt_unresolved]

/-- Whether a registration succeeds. -/
def accepts (schema : Schema) (r : Registration) : Bool := (schema.attempt r).isOk

theorem accepts_congr {schema' : Schema} (h : schema.unresolved = schema'.unresolved)
    (r : Registration) : schema.accepts r = schema'.accepts r := by
  have hsame := attempt_congr h r
  rw [accepts, accepts]
  cases hs : schema.attempt r <;> cases hs' : schema'.attempt r <;>
    simp_all [Except.map, Except.isOk, Except.toBool]

theorem settle_cases (schema : Schema) (r : Registration) :
    schema.accepts r = true ∧ Registers r schema (schema.settle r) ∨
      schema.accepts r = false ∧ schema.settle r = schema := by
  rw [accepts, settle]
  cases h : schema.attempt r with
  | ok after => exact .inl ⟨rfl, registers_of_attempt h⟩
  | error e => exact .inr ⟨rfl, rfl⟩

theorem unresolved_settle (schema : Schema) (r : Registration) :
    (schema.settle r).unresolved = schema.unresolved := by
  rcases settle_cases schema r with ⟨-, h⟩ | ⟨-, h⟩
  · exact h.unresolved_eq
  · rw [h]

theorem resolver?_settle (schema : Schema) (r : Registration) (typeName fieldName : String) :
    (schema.settle r).resolver? typeName fieldName =
      (if schema.accepts r then r.resolver? typeName fieldName else none).or
        (schema.resolver? typeName fieldName) := by
  rcases settle_cases schema r with ⟨haccepts, h⟩ | ⟨haccepts, h⟩
  · rw [haccepts, h.resolver?_eq]
    rfl
  · rw [haccepts, h]
    rfl

theorem typeResolver?_settle (schema : Schema) (r : Registration) (typeName : String) :
    Entries.get? typeName (schema.settle r).typeResolvers =
      (if schema.accepts r then r.typeResolver? typeName else none).or
        (Entries.get? typeName schema.typeResolvers) := by
  rcases settle_cases schema r with ⟨haccepts, h⟩ | ⟨haccepts, h⟩
  · rw [haccepts, h.typeResolver?_eq]
    rfl
  · rw [haccepts, h]
    rfl

theorem unresolved_registerAll (schema : Schema) (registrations : List Registration) :
    (schema.registerAll registrations).unresolved = schema.unresolved := by
  induction registrations generalizing schema with
  | nil => rfl
  | cons r registrations ih => exact (ih (schema.settle r)).trans (unresolved_settle schema r)

/-- The last accepted registration for a field counts. -/
theorem resolver?_registerAll (schema : Schema) (registrations : List Registration)
    (typeName fieldName : String) :
    (schema.registerAll registrations).resolver? typeName fieldName =
      ((registrations.filter schema.accepts).filterMap
        (·.resolver? typeName fieldName)).getLast?.or (schema.resolver? typeName fieldName) := by
  induction registrations using List.reverseRecOn with
  | nil => rfl
  | append_singleton registrations r ih =>
    have hsettle : schema.registerAll (registrations ++ [r]) =
        (schema.registerAll registrations).settle r := List.foldl_append
    rw [hsettle, resolver?_settle, ih, accepts_congr (unresolved_registerAll schema registrations),
      List.filter_append, List.filterMap_append, List.getLast?_append]
    cases haccepts : schema.accepts r <;>
      cases hr : r.resolver? typeName fieldName <;> simp [haccepts, hr]

theorem typeResolver?_registerAll (schema : Schema) (registrations : List Registration)
    (typeName : String) :
    Entries.get? typeName (schema.registerAll registrations).typeResolvers =
      ((registrations.filter schema.accepts).filterMap
        (·.typeResolver? typeName)).getLast?.or (Entries.get? typeName schema.typeResolvers) := by
  induction registrations using List.reverseRecOn with
  | nil => rfl
  | append_singleton registrations r ih =>
    have hsettle : schema.registerAll (registrations ++ [r]) =
        (schema.registerAll registrations).settle r := List.foldl_append
    rw [hsettle, typeResolver?_settle, ih,
      accepts_congr (unresolved_registerAll schema registrations),
      List.filter_append, List.filterMap_append, List.getLast?_append]
    cases haccepts : schema.accepts r <;>
      cases hr : r.typeResolver? typeName <;> simp [haccepts, hr]

end Registers

namespace Represented

variable {schema schema' : Schema}

theorem settle (h : schema.Represented) (r : Registration) : (schema.settle r).Represented := by
  rw [Schema.settle]
  split
  · next after hafter =>
    cases r with
    | field typeName fieldName r => exact h.registerResolver hafter
    | type typeName r => exact h.registerTypeResolver hafter
  · exact h

theorem registerAll (h : schema.Represented) (registrations : List Registration) :
    (schema.registerAll registrations).Represented := by
  induction registrations generalizing schema with
  | nil => exact h
  | cons r registrations ih => exact ih (h.settle r)

theorem rootType? (h : schema.Represented) {kind : OperationKind} {type : ObjectType}
    (htype : schema.rootType? kind = some type) :
    schema.type? type.name = some (.object type) := by
  obtain ⟨name, hname⟩ := exists_of_rootType? htype
  have hown : type.name = name := h.types.2 _ (Entries.mem_of_get? hname)
  rwa [hown]

/-- Nothing but resolvers tells schemas of one text apart. -/
theorem ext (h : schema.Represented) (h' : schema'.Represented)
    (hu : schema.unresolved = schema'.unresolved)
    (hresolver : ∀ t f, schema.resolver? t f = schema'.resolver? t f)
    (ht : schema.typeResolvers = schema'.typeResolvers) : schema = schema' := by
  have hroots : schema.roots = schema'.roots := (Schema.mk.inj hu).2.1
  have htypes : schema.types = schema'.types := by
    refine Entries.ext_map h.types.1 (Schema.mk.inj hu).1 fun name d d' hd hd' heq => ?_
    have hrep := h.represented _ (Entries.mem_of_get? hd)
    have hrep' := h'.represented _ (Entries.mem_of_get? hd')
    rcases hrep.eq_of_register hrep' heq with hsame | ⟨type, type', rfl, rfl, hsame⟩
    · exact hsame
    · refine congrArg TypeDefinition.object (hrep.eq_of_resolvers hsame fun f => ?_)
      have hf := hresolver name f
      simpa only [resolver?, objectType?, type?, hd, hd', Option.bind_some] using hf
  cases schema
  cases schema'
  cases htypes
  cases hroots
  cases ht
  rfl

theorem typeResolvers_settle_field (schema : Schema) (typeName fieldName : String) (r : Resolver) :
    (schema.settle (.field typeName fieldName r)).typeResolvers = schema.typeResolvers := by
  rw [Schema.settle]
  split
  · next after hafter =>
    obtain ⟨type, -, -, rfl⟩ := exists_of_registerResolver hafter
    rfl
  · rfl

/-- Registrations for different fields may come in either order. -/
theorem settle_comm (h : schema.Represented) {typeName fieldName typeName' fieldName' : String}
    (hne : (typeName, fieldName) ≠ (typeName', fieldName')) (r r' : Resolver) :
    (schema.settle (.field typeName fieldName r)).settle (.field typeName' fieldName' r') =
      (schema.settle (.field typeName' fieldName' r')).settle (.field typeName fieldName r) := by
  refine ext ((h.settle _).settle _) ((h.settle _).settle _) ?_ (fun t f => ?_) ?_
  · simp only [unresolved_settle]
  · have hone : (Registration.field typeName fieldName r).resolver? t f = none ∨
        (Registration.field typeName' fieldName' r').resolver? t f = none := by
      by_cases htf : typeName = t ∧ fieldName = f
      · obtain ⟨rfl, rfl⟩ := htf
        exact .inr (if_neg fun heq => hne (Prod.ext heq.1.symm heq.2.symm))
      · exact .inl (if_neg htf)
    simp only [resolver?_settle, accepts_congr (unresolved_settle schema _)]
    rcases hone with hone | hone <;> simp [hone]
  · simp only [typeResolvers_settle_field]

end Represented

/-- Whatever is registered with the schema of a text, and whether or not it is accepted, the schema
stays well represented. A failed registration changes nothing and a successful one nothing but its
resolver. The last accepted registration counts, and the order of others does not. -/
theorem registered {text : String} {schema : Schema} (h : parse text = .ok schema)
    (registrations : List Registration) :
    let reached := schema.registerAll registrations
    reached.Represented ∧
      (∀ kind type, reached.rootType? kind = some type →
        reached.type? type.name = some (.object type)) ∧
      (∀ r e, reached.attempt r = .error e → reached.settle r = reached) ∧
      (∀ r after, reached.attempt r = .ok after →
        reached.settle r = after ∧ Registers r reached after) ∧
      (∀ typeName fieldName, reached.resolver? typeName fieldName =
        ((registrations.filter schema.accepts).filterMap
          (·.resolver? typeName fieldName)).getLast?) ∧
      (∀ typeName, Entries.get? typeName reached.typeResolvers =
        ((registrations.filter schema.accepts).filterMap (·.typeResolver? typeName)).getLast?) ∧
      (∀ r r', ((reached.settle r).attempt r').map (fun _ => ()) =
        (reached.attempt r').map fun _ => ()) ∧
      ∀ typeName fieldName typeName' fieldName' r r',
        (typeName, fieldName) ≠ (typeName', fieldName') →
          (reached.settle (.field typeName fieldName r)).settle (.field typeName' fieldName' r') =
            (reached.settle (.field typeName' fieldName' r')).settle
              (.field typeName fieldName r) := by
  intro reached
  have hreached : reached.Represented := (Represented.of_parse h).registerAll registrations
  refine ⟨hreached, fun _ _ => hreached.rootType?, fun r e he => ?_, fun r after hafter => ?_,
    fun t f => ?_, fun t => ?_, fun r r' => ?_, fun _ _ _ _ r r' hne => ?_⟩
  · rw [settle, he]
  · exact ⟨by rw [settle, hafter], registers_of_attempt hafter⟩
  · rw [resolver?_registerAll, Represented.resolver?_of_parse h, Option.or_none]
  · rw [typeResolver?_registerAll, Represented.typeResolvers_of_parse h]
    exact Option.or_none
  · exact attempt_congr (unresolved_settle reached r) r'
  · exact hreached.settle_comm hne r r'

/-- Of two registrations for one field the second counts, and two that fail change nothing. -/
theorem registered_small :
    ((small none).registerAll [.field "Query" "a" (.constant .null),
      .field "Query" "c" (.constant .null), .type "Query" .unknown,
      .field "Query" "a" (.constant (.bool true))]).resolver? "Query" "a" =
        some (.constant (.bool true)) := by
  have h := registered parse_small [.field "Query" "a" (.constant .null),
    .field "Query" "c" (.constant .null), .type "Query" .unknown,
    .field "Query" "a" (.constant (.bool true))]
  exact (h.2.2.2.2.1 "Query" "a").trans rfl

end Schema

end GraphQL
