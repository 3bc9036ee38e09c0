import GraphQL.Proofs.Schema.Loaded
import Mathlib.Data.List.Induction

/-!
Definitions and extensions in any order.

A text comes to one schema however its extensions stand among its definitions. In it each type
lists the entries of its last definition and then those of its extensions, in order
(`TypeDefinition.Lists`).
-/

set_option autoImplicit false

namespace GraphQL

theorem addNames_append (names new more : List String) :
    addNames names (new ++ more) = addNames (addNames names new) more :=
  List.foldl_append

theorem addNames_snoc (names new : List String) (n : String) :
    addNames names (new ++ [n]) =
      if n ∈ addNames names new then addNames names new else addNames names new ++ [n] :=
  addNames_append names new [n]

theorem mem_addNames {names new : List String} {n : String} :
    n ∈ addNames names new ↔ n ∈ names ∨ n ∈ new := by
  induction new generalizing names with
  | nil => simp [addNames]
  | cons m new ih =>
    have hstep : addNames names (m :: new) =
        addNames (if m ∈ names then names else names ++ [m]) new := rfl
    rw [hstep, ih]
    split <;> simp only [List.mem_append, List.mem_cons, List.not_mem_nil, or_false, or_assoc]
    next hm =>
      constructor
      · rintro (h | h) <;> simp [h]
      · rintro (h | rfl | h) <;> simp [*]

/-- Names that repeat add nothing. -/
theorem addNames_of_eraseDups (names new : List String) :
    addNames names new.eraseDups = addNames names new := by
  induction new using List.reverseRecOn with
  | nil => rfl
  | append_singleton new n ih =>
    have hmem : n ∈ new → n ∈ addNames names new := fun hn => mem_addNames.2 (.inr hn)
    by_cases hn : n ∈ new
    · rw [eraseDups_snoc, if_pos hn, addNames_snoc, if_pos (hmem hn), ih]
    · rw [eraseDups_snoc, if_neg hn, addNames_append, ih, addNames_append]

theorem addNames_eraseDups (names new : List String) :
    addNames names.eraseDups new = (names ++ new).eraseDups := by
  induction new generalizing names with
  | nil => simp [addNames]
  | cons n new ih =>
    have hstep : addNames names.eraseDups (n :: new) = addNames (names ++ [n]).eraseDups new := by
      simp [addNames, eraseDups_snoc]
    rw [hstep, ih, List.append_assoc, List.singleton_append]

theorem addNames_nil (new : List String) : addNames [] new = new.eraseDups :=
  addNames_eraseDups [] new

namespace Entries

variable {α : Type}

theorem keys_insertAll_eq_addNames (m new : Entries α) :
    keys (insertAll m new) = addNames (keys m) (keys new) := by
  induction new generalizing m with
  | nil => rfl
  | cons e new ih =>
    obtain ⟨k, v⟩ := e
    rw [insertAll_cons, ih, keys_insert]
    rfl

theorem get?_insertAll_of_nodup {m new : Entries α} (h : (keys new).Nodup) (key : String) :
    get? key (insertAll m new) = (get? key new).or (get? key m) := by
  rw [get?_insertAll, ← get?_ofList, ofList_of_nodup h]

/-- A map lists values under their names: each name stands where it first appears, and under it
the last value of the name. -/
structure Lists (name : α → String) (values : List α) (m : Entries α) : Prop where
  keys_eq : keys m = (values.map name).eraseDups
  get?_eq : ∀ key, get? key m = (values.filter (name · = key)).getLast?

namespace Lists

variable {name : α → String} {values more : List α} {m new : Entries α}

theorem ofList (name : α → String) (values : List α) :
    Lists name values (ofList (values.map fun v => (name v, v))) where
  keys_eq := by
    rw [keys_ofList, keys, List.map_map]
    rfl
  get?_eq key := by
    rw [get?_ofList, List.filter_map, List.getLast?_map, Option.map_map]
    exact congrFun Option.map_id _

theorem nodup (h : Lists name values m) : (keys m).Nodup := by
  rw [h.keys_eq]
  exact nodup_eraseDups _

theorem insertAll (h : Lists name values m) (hnew : Lists name more new) :
    Lists name (values ++ more) (insertAll m new) where
  keys_eq := by
    rw [keys_insertAll_eq_addNames, h.keys_eq, hnew.keys_eq, addNames_of_eraseDups,
      addNames_eraseDups, List.map_append]
  get?_eq key := by
    rw [get?_insertAll_of_nodup hnew.nodup, h.get?_eq, hnew.get?_eq, List.filter_append,
      List.getLast?_append]

end Lists

/-- A map lists what was read of declarations. -/
def ListsRead {D : Type} (read : D → Except SpecError α) (name : α → String)
    (declarations : List D) (m : Entries α) : Prop :=
  ∃ values, declarations.mapM read = .ok values ∧ Lists name values m

theorem ListsRead.insertAll {D : Type} {read : D → Except SpecError α} {name : α → String}
    {declarations more : List D} {m new : Entries α} (h : ListsRead read name declarations m)
    (hnew : ListsRead read name more new) :
    ListsRead read name (declarations ++ more) (insertAll m new) := by
  obtain ⟨values, hvalues, h⟩ := h
  obtain ⟨values', hvalues', hnew⟩ := hnew
  exact ⟨values ++ values', by rw [List.mapM_append, hvalues, hvalues']; rfl, h.insertAll hnew⟩

end Entries

/-- An input value with its default value read. -/
def InputValue.read (v : InputValue Syntax.Value) : Except SpecError (InputValue Literal) :=
  v.traverse (Literal.ofArgument v.name)

theorem InputValue.listsRead_of_table {values : List (InputValue Syntax.Value)}
    {entries : Entries (InputValue Literal)} (h : table values = .ok entries) :
    Entries.ListsRead InputValue.read InputValue.name values entries := by
  obtain ⟨literals, hliterals, h⟩ := bind_eq_ok_iff.1 h
  cases h
  exact ⟨literals, hliterals, .ofList _ literals⟩

/-- A field with the default values of its arguments read. -/
def FieldDeclaration.read (f : FieldDeclaration Syntax.Value) :
    Except SpecError FieldDefinition := do
  return ⟨f.name, f.type, ← InputValue.table f.arguments, none⟩

theorem FieldDefinition.listsRead_of_table {fields : List (FieldDeclaration Syntax.Value)}
    {entries : Entries FieldDefinition} (h : table fields = .ok entries) :
    Entries.ListsRead FieldDeclaration.read FieldDefinition.name fields entries := by
  obtain ⟨definitions, hdefinitions, h⟩ := bind_eq_ok_iff.1 h
  cases h
  exact ⟨definitions, hdefinitions, .ofList _ definitions⟩

/-- The type that a definition is of. -/
def Declaration.typeName? {V : Type} : Declaration V → Option String
  | .scalar name => some name
  | .object name _ _ => some name
  | .interface name _ _ => some name
  | .union name _ => some name
  | .enum name _ => some name
  | .input name _ => some name
  | .schema _ => none
  | .directive _ => none

/-- The type that an extension adds to. -/
def Declaration.extendedName? {V : Type} : Declaration V → Option String
  | .scalar _ => none
  | d => d.typeName?

/-- What a type of this name lists: the entries of declarations of one kind, in their order. -/
inductive TypeDefinition.Lists (name : String) (declarations : List (Declaration Syntax.Value)) :
    TypeDefinition → Prop where
  | scalar : declarations = [.scalar name] → Lists name declarations (.scalar name)
  | object {type : ObjectType}
      (parts : List (List String × List (FieldDeclaration Syntax.Value))) :
      declarations = parts.map (fun part => .object name part.1 part.2) → type.name = name →
      type.implements = (parts.flatMap (·.1)).eraseDups →
      type.fields.ListsRead FieldDeclaration.read FieldDefinition.name (parts.flatMap (·.2)) →
      Lists name declarations (.object type)
  | interface {type : InterfaceType}
      (parts : List (List String × List (FieldDeclaration Syntax.Value))) :
      declarations = parts.map (fun part => .interface name part.1 part.2) → type.name = name →
      type.implements = (parts.flatMap (·.1)).eraseDups →
      type.fields.ListsRead FieldDeclaration.read FieldDefinition.name (parts.flatMap (·.2)) →
      Lists name declarations (.interface type)
  | union {type : UnionType} (parts : List (List String)) :
      declarations = parts.map (.union name) → type.name = name →
      type.members = parts.flatten.eraseDups → Lists name declarations (.union type)
  | enum {type : EnumType} (parts : List (List String)) :
      declarations = parts.map (.enum name) → type.name = name →
      type.values = parts.flatten.eraseDups → Lists name declarations (.enum type)
  | input {type : InputObjectType} (parts : List (List (InputValue Syntax.Value))) :
      declarations = parts.map (.input name) → type.name = name →
      type.fields.ListsRead InputValue.read InputValue.name parts.flatten →
      Lists name declarations (.input type)

namespace Schema

variable {schema after : Schema} {d : Declaration Syntax.Value} {name : String}

theorem type?_addType_of_eq (schema : Schema) {t : TypeDefinition} (h : t.name = name) :
    (schema.addType t).type? name = some t := by
  rw [type?_addType, if_pos h.symm]

theorem type?_addType_of_ne (schema : Schema) {t : TypeDefinition} (h : t.name ≠ name) :
    (schema.addType t).type? name = schema.type? name := by
  rw [type?_addType, if_neg (Ne.symm h)]

/-- A definition replaces what its type was. -/
theorem lists_define (h : schema.define d = .ok after) (hd : d.typeName? = some name) :
    ∃ t, after.type? name = some t ∧ t.Lists name [d] := by
  cases d with
  | schema | directive => cases hd
  | scalar name' =>
    cases hd
    cases h
    exact ⟨_, type?_addType_of_eq schema rfl, .scalar rfl⟩
  | object name' implements fields =>
    cases hd
    obtain ⟨table, ht, h⟩ := bind_eq_ok_iff.1 h
    cases h
    refine ⟨_, type?_addType_of_eq schema rfl, ?_⟩
    exact .object [(implements, fields)] rfl rfl (by simp [addNames_nil])
      (by simpa using FieldDefinition.listsRead_of_table ht)
  | interface name' implements fields =>
    cases hd
    obtain ⟨table, ht, h⟩ := bind_eq_ok_iff.1 h
    cases h
    refine ⟨_, type?_addType_of_eq schema rfl, ?_⟩
    exact .interface [(implements, fields)] rfl rfl (by simp [addNames_nil])
      (by simpa using FieldDefinition.listsRead_of_table ht)
  | union name' members =>
    cases hd
    cases h
    refine ⟨_, type?_addType_of_eq schema rfl, ?_⟩
    exact .union [members] rfl rfl (by simp [addNames_nil])
  | enum name' values =>
    cases hd
    cases h
    refine ⟨_, type?_addType_of_eq schema rfl, ?_⟩
    exact .enum [values] rfl rfl (by simp [addNames_nil])
  | input name' fields =>
    cases hd
    obtain ⟨table, ht, h⟩ := bind_eq_ok_iff.1 h
    cases h
    refine ⟨_, type?_addType_of_eq schema rfl, ?_⟩
    exact .input [fields] rfl rfl (by simpa using InputValue.listsRead_of_table ht)

/-- A definition concerns no other type, and a new type follows the others. -/
theorem type?_define (h : schema.define d = .ok after) (hd : d.typeName? ≠ some name) :
    after.type? name = schema.type? name := by
  cases d with
  | schema | directive =>
    cases h
    rfl
  | scalar | union | enum =>
    cases h
    exact type?_addType_of_ne schema (fun hname => hd (congrArg some hname))
  | object | interface | input =>
    obtain ⟨table, ht, h⟩ := bind_eq_ok_iff.1 h
    cases h
    exact type?_addType_of_ne schema (fun hname => hd (congrArg some hname))

theorem typeResolvers_define (h : schema.define d = .ok after) :
    after.typeResolvers = schema.typeResolvers := by
  cases d with
  | schema | directive | scalar | union | enum =>
    cases h
    rfl
  | object | interface | input =>
    obtain ⟨table, ht, h⟩ := bind_eq_ok_iff.1 h
    cases h
    rfl

theorem keys_define (h : schema.define d = .ok after) :
    Entries.keys after.types = addNames (Entries.keys schema.types) d.typeName?.toList := by
  cases d with
  | schema | directive =>
    cases h
    rfl
  | scalar | union | enum =>
    cases h
    exact Entries.keys_insert _ _ _
  | object | interface | input =>
    obtain ⟨table, ht, h⟩ := bind_eq_ok_iff.1 h
    cases h
    exact Entries.keys_insert _ _ _

/-- An extension adds its entries to a type of its kind. -/
theorem lists_extend (h : schema.extend d = .ok after) (hd : d.extendedName? = some name)
    {t : TypeDefinition} {declarations : List (Declaration Syntax.Value)}
    (ht : schema.type? name = some t) (hlists : t.Lists name declarations) :
    ∃ t', after.type? name = some t' ∧ t'.Lists name (declarations ++ [d]) := by
  cases d with
  | schema | directive | scalar => cases hd
  | object name' implements fields =>
    cases hd
    simp only [extend, ht] at h
    cases hlists with
    | object parts hparts hname himplements hfields =>
      obtain ⟨table, htable, h⟩ := bind_eq_ok_iff.1 h
      cases h
      refine ⟨_, type?_addType_of_eq schema hname, ?_⟩
      refine .object (parts ++ [(implements, fields)]) (by simp [hparts]) hname ?_ ?_
      · simp [himplements, addNames_eraseDups]
      · simpa using hfields.insertAll (FieldDefinition.listsRead_of_table htable)
    | _ => cases h
  | interface name' implements fields =>
    cases hd
    simp only [extend, ht] at h
    cases hlists with
    | interface parts hparts hname himplements hfields =>
      obtain ⟨table, htable, h⟩ := bind_eq_ok_iff.1 h
      cases h
      refine ⟨_, type?_addType_of_eq schema hname, ?_⟩
      refine .interface (parts ++ [(implements, fields)]) (by simp [hparts]) hname ?_ ?_
      · simp [himplements, addNames_eraseDups]
      · simpa using hfields.insertAll (FieldDefinition.listsRead_of_table htable)
    | _ => cases h
  | union name' members =>
    cases hd
    simp only [extend, ht] at h
    cases hlists with
    | union parts hparts hname hmembers =>
      cases h
      refine ⟨_, type?_addType_of_eq schema hname, ?_⟩
      refine .union (parts ++ [members]) (by simp [hparts]) hname ?_
      simp [hmembers, addNames_eraseDups]
    | _ => cases h
  | enum name' values =>
    cases hd
    simp only [extend, ht] at h
    cases hlists with
    | enum parts hparts hname hvalues =>
      cases h
      refine ⟨_, type?_addType_of_eq schema hname, ?_⟩
      refine .enum (parts ++ [values]) (by simp [hparts]) hname ?_
      simp [hvalues, addNames_eraseDups]
    | _ => cases h
  | input name' fields =>
    cases hd
    simp only [extend, ht] at h
    cases hlists with
    | input parts hparts hname hfields =>
      obtain ⟨table, htable, h⟩ := bind_eq_ok_iff.1 h
      cases h
      refine ⟨_, type?_addType_of_eq schema hname, ?_⟩
      refine .input (parts ++ [fields]) (by simp [hparts]) hname ?_
      simpa using hfields.insertAll (InputValue.listsRead_of_table htable)
    | _ => cases h

/-- An extension replaces the type it names by one of the same name, if it changes any type. -/
theorem types_extend (h : schema.extend d = .ok after) :
    after.types = schema.types ∧ after.typeResolvers = schema.typeResolvers ∨
      ∃ extended t t', d.extendedName? = some extended ∧ schema.type? extended = some t ∧
        after = schema.addType t' ∧ t'.name = t.name := by
  cases d with
  | schema | directive | scalar =>
    cases h
    exact .inl ⟨rfl, rfl⟩
  | object name' implements fields | interface name' implements fields | input name' fields =>
    rw [extend] at h
    split at h
    · next type ht =>
      obtain ⟨table, -, h⟩ := bind_eq_ok_iff.1 h
      cases h
      exact .inr ⟨name', _, _, rfl, ht, rfl, rfl⟩
    · cases h
  | union name' names | enum name' names =>
    rw [extend] at h
    split at h
    · next type ht =>
      cases h
      exact .inr ⟨name', _, _, rfl, ht, rfl, rfl⟩
    · cases h

end Schema

/-- The built-in scalars, as definitions that stand before all others. -/
def Declaration.builtin : List (Declaration Syntax.Value) := TypeRef.builtinNames.map .scalar

theorem TypeDefinition.Lists.name_eq {name : String} {t : TypeDefinition}
    {declarations : List (Declaration Syntax.Value)} (h : t.Lists name declarations) :
    t.name = name := by
  cases h with
  | scalar => rfl
  | object _ _ hname | interface _ _ hname | union _ _ hname | enum _ _ hname | input _ _ hname =>
    exact hname

namespace Schema

/-- The types of a schema stand where they are first defined, and each lists its last definition
and then its extensions. None has a type resolver. -/
structure Lists (definitions extensions : List (Declaration Syntax.Value)) (schema : Schema) :
    Prop where
  keys_eq : Entries.keys schema.types = (definitions.filterMap Declaration.typeName?).eraseDups
  lists : ∀ {name d}, (definitions.filter (·.typeName? = some name)).getLast? = some d →
    ∃ t, schema.type? name = some t ∧
      t.Lists name (d :: extensions.filter (·.extendedName? = some name))
  typeResolvers_eq : schema.typeResolvers = []

namespace Lists

variable {definitions extensions : List (Declaration Syntax.Value)} {schema after : Schema}

theorem exists_lists (h : schema.Lists definitions extensions) {name : String}
    {t : TypeDefinition} (ht : schema.type? name = some t) :
    ∃ declarations, t.Lists name declarations := by
  have hkey : name ∈ Entries.keys schema.types := Entries.mem_keys_of_get? ht
  rw [h.keys_eq, List.mem_eraseDups, List.mem_filterMap] at hkey
  obtain ⟨d, hd, hname⟩ := hkey
  have hfound : d ∈ definitions.filter (·.typeName? = some name) := by simp [hd, hname]
  obtain ⟨t', ht', hlists⟩ :=
    h.lists (List.getLast?_eq_some_getLast (List.ne_nil_of_mem hfound))
  rw [ht] at ht'
  cases ht'
  exact ⟨_, hlists⟩

theorem name_eq (h : schema.Lists definitions extensions) {name : String} {t : TypeDefinition}
    (ht : schema.type? name = some t) : t.name = name :=
  (h.exists_lists ht).elim fun _ hlists => hlists.name_eq

theorem define (h : schema.Lists definitions []) {d : Declaration Syntax.Value}
    (hafter : schema.define d = .ok after) : after.Lists (definitions ++ [d]) [] where
  keys_eq := by
    rw [keys_define hafter, h.keys_eq, addNames_eraseDups, List.filterMap_append]
    cases d <;> rfl
  lists := by
    intro name last hlast
    by_cases hd : d.typeName? = some name
    · have : last = d := by simpa [List.filter_append, hd, eq_comm] using hlast
      subst this
      exact lists_define hafter hd
    · rw [type?_define hafter hd]
      exact h.lists (by simpa [List.filter_append, hd] using hlast)
  typeResolvers_eq := (typeResolvers_define hafter).trans h.typeResolvers_eq

theorem extend (h : schema.Lists definitions extensions) {d : Declaration Syntax.Value}
    (hafter : schema.extend d = .ok after) : after.Lists definitions (extensions ++ [d]) where
  keys_eq := by
    rw [← h.keys_eq]
    rcases types_extend hafter with ⟨htypes, -⟩ | ⟨name, t, t', -, ht, rfl, hname⟩
    · rw [htypes]
    · have hkey : t'.name ∈ Entries.keys schema.types := by
        rw [hname, h.name_eq ht]
        exact Entries.mem_keys_of_get? ht
      exact (Entries.keys_insert _ _ _).trans (if_pos hkey)
  lists := by
    intro name last hlast
    obtain ⟨t, ht, hlists⟩ := h.lists hlast
    by_cases hd : d.extendedName? = some name
    · obtain ⟨t', ht', hlists'⟩ := lists_extend hafter hd ht hlists
      exact ⟨t', ht', by simpa [List.filter_append, hd] using hlists'⟩
    · refine ⟨t, ?_, by simpa [List.filter_append, hd] using hlists⟩
      rcases types_extend hafter with ⟨htypes, -⟩ | ⟨name', t', t'', hname', ht', rfl, hname⟩
      · rwa [type?, htypes]
      · rw [type?_addType_of_ne, ht]
        rw [hname, h.name_eq ht']
        rintro rfl
        exact hd hname'
  typeResolvers_eq := by
    rcases types_extend hafter with ⟨-, htypes⟩ | ⟨name, t, t', -, -, rfl, -⟩
    · rw [htypes, h.typeResolvers_eq]
    · exact h.typeResolvers_eq

theorem defineAll (h : schema.Lists definitions []) {more : List (Declaration Syntax.Value)}
    (hafter : more.foldlM Schema.define schema = .ok after) :
    after.Lists (definitions ++ more) [] := by
  induction more generalizing definitions schema with
  | nil =>
    cases hafter
    simpa using h
  | cons d more ih =>
    rw [List.foldlM_cons, bind_eq_ok_iff] at hafter
    obtain ⟨next, hnext, hafter⟩ := hafter
    simpa using ih (h.define hnext) hafter

theorem extendAll (h : schema.Lists definitions extensions)
    {more : List (Declaration Syntax.Value)}
    (hafter : more.foldlM Schema.extend schema = .ok after) :
    after.Lists definitions (extensions ++ more) := by
  induction more generalizing extensions schema with
  | nil =>
    cases hafter
    simpa using h
  | cons d more ih =>
    rw [List.foldlM_cons, bind_eq_ok_iff] at hafter
    obtain ⟨next, hnext, hafter⟩ := hafter
    simpa using ih (h.extend hnext) hafter

theorem builtin : builtin.Lists Declaration.builtin [] := by
  have hempty : (⟨[], ⟨none, none, none⟩, []⟩ : Schema).Lists [] [] :=
    ⟨rfl, (fun hlast => by cases hlast), rfl⟩
  exact hempty.defineAll rfl

theorem addDefaultRoot (h : schema.Lists definitions extensions) (kind : OperationKind) :
    (schema.addDefaultRoot kind).Lists definitions extensions := by
  unfold Schema.addDefaultRoot
  split
  · exact ⟨h.keys_eq, h.lists, h.typeResolvers_eq⟩
  · exact h

end Lists

end Schema

namespace Syntax.Item

/-- The declarations of a text that are no extensions. -/
def definitions (items : List Item) : List (Declaration Value) :=
  ((items.filterMap (·.schema?)).filter (!·.extends?)).map (·.declaration)

/-- The declarations of a text that extend others. -/
def extensions (items : List Item) : List (Declaration Value) :=
  ((items.filterMap (·.schema?)).filter (·.extends?)).map (·.declaration)

end Syntax.Item

namespace Schema

/-- The schema of these definitions and extensions. -/
def ofDeclarations (definitions extensions : List (Declaration Syntax.Value)) :
    Except SpecError Schema := do
  let defined ← definitions.foldlM define builtin
  let extended ← extensions.foldlM extend defined
  return [OperationKind.query, .mutation, .subscription].foldl addDefaultRoot extended

theorem lists_ofDeclarations {definitions extensions : List (Declaration Syntax.Value)}
    {schema : Schema} (h : ofDeclarations definitions extensions = .ok schema) :
    schema.Lists (Declaration.builtin ++ definitions) extensions := by
  obtain ⟨defined, hdefined, h⟩ := bind_eq_ok_iff.1 h
  obtain ⟨extended, hextended, h⟩ := bind_eq_ok_iff.1 h
  cases h
  have hlists := (Lists.builtin.defineAll hdefined).extendAll hextended
  exact ((hlists.addDefaultRoot _).addDefaultRoot _).addDefaultRoot _

/-- The two passes over a text see its definitions and its extensions apart. -/
theorem parse_eq_ofDeclarations {text : String} {items : List Syntax.Item}
    (h : Syntax.Item.parse text = .ok items) :
    parse text = ofDeclarations (Syntax.Item.definitions items) (Syntax.Item.extensions items) := by
  rw [parse, h]
  simp only [ofItems, ofDeclarations, Syntax.Item.definitions, Syntax.Item.extensions,
    List.foldlM_map]

theorem exists_lists_of_parse {text : String} {schema : Schema} (h : parse text = .ok schema) :
    ∃ definitions extensions, schema.Lists (Declaration.builtin ++ definitions) extensions := by
  cases hitems : Syntax.Item.parse text with
  | error e =>
    rw [parse, hitems] at h
    cases h
  | ok items =>
    rw [parse_eq_ofDeclarations hitems] at h
    exact ⟨_, _, lists_ofDeclarations h⟩

/-- Texts with the same definitions and the same extensions, each in one order, come to the same
schema or fail with the same error, however they are interleaved. Each type of the schema lists
its last definition and then its extensions. -/
theorem parse_interleaved {text text' : String} {items items' : List Syntax.Item}
    (h : Syntax.Item.parse text = .ok items) (h' : Syntax.Item.parse text' = .ok items')
    (hdefinitions : Syntax.Item.definitions items = Syntax.Item.definitions items')
    (hextensions : Syntax.Item.extensions items = Syntax.Item.extensions items') :
    parse text = parse text' ∧
      ∀ schema, parse text = .ok schema →
        schema.Lists (Declaration.builtin ++ Syntax.Item.definitions items)
          (Syntax.Item.extensions items) := by
  constructor
  · rw [parse_eq_ofDeclarations h, parse_eq_ofDeclarations h', hdefinitions, hextensions]
  · intro schema hschema
    rw [parse_eq_ofDeclarations h] at hschema
    exact lists_ofDeclarations hschema

/-- Whether an extension stands before its definition here, with which it shares a field. -/
def extendsShared : List Syntax.Item → Bool
  | [.schema ⟨true, .object "A" [] [⟨"x", .nonNull .int, []⟩, ⟨"z", .int, []⟩]⟩,
      .schema ⟨false, .object "A" [] [⟨"x", .int, []⟩, ⟨"y", .int, []⟩]⟩] => true
  | _ => false

theorem eq_of_extendsShared {items : List Syntax.Item} (h : extendsShared items = true) :
    items = [.schema ⟨true, .object "A" [] [⟨"x", .nonNull .int, []⟩, ⟨"z", .int, []⟩]⟩,
      .schema ⟨false, .object "A" [] [⟨"x", .int, []⟩, ⟨"y", .int, []⟩]⟩] := by
  unfold extendsShared at h
  split at h
  · rfl
  · cases h

theorem exists_of_reads (p : List Syntax.Item → Bool) (text : String)
    (h : (Syntax.Item.parse text).toOption.any p = true) :
    ∃ items, Syntax.Item.parse text = .ok items ∧ p items = true := by
  cases hparse : Syntax.Item.parse text with
  | error e => simp [hparse, Except.toOption] at h
  | ok items => exact ⟨items, rfl, by simpa [hparse, Except.toOption] using h⟩

/-- The shared field keeps its place and takes the type that the extension gives it. -/
theorem parse_interleaved_shared :
    parse "extend type A{x:Int! z:Int}type A{x:Int y:Int}" =
        parse "type A{x:Int y:Int}extend type A{x:Int! z:Int}" ∧
      ∃ schema, parse "extend type A{x:Int! z:Int}type A{x:Int y:Int}" = .ok schema ∧
        schema.objectType? "A" = some ⟨"A", [], [("x", ⟨"x", .nonNull .int, [], none⟩),
          ("y", ⟨"y", .int, [], none⟩), ("z", ⟨"z", .int, [], none⟩)]⟩ := by
  obtain ⟨items, h, hitems⟩ :=
    exists_of_reads extendsShared "extend type A{x:Int! z:Int}type A{x:Int y:Int}"
      (by decide +kernel)
  obtain ⟨items', h', hitems'⟩ :=
    exists_of_reads (extendsShared ·.reverse) "type A{x:Int y:Int}extend type A{x:Int! z:Int}"
      (by decide +kernel)
  have heq := eq_of_extendsShared hitems
  have heq' := List.reverse_eq_iff.1 (eq_of_extendsShared hitems')
  have hsame := parse_interleaved h h' (by rw [heq, heq']; rfl) (by rw [heq, heq']; rfl)
  exact ⟨hsame.1, _, by rw [parse_eq_ofDeclarations h, heq]; rfl, rfl⟩

end Schema

end GraphQL
