import GraphQL.Coercion.Arguments
import GraphQL.Proofs.Entries
import GraphQL.Proofs.Except

/-!
Canonical input values: what coercion to a type can come to.

A coerced value is canonical, whatever it was before (`TypeRef.canonical_of_coerceInput`), and so
are all arguments that a field is given (`FieldDefinition.canonicalAll_of_coerceArguments`).
Arguments are refused just when they have a fault
(`FieldDefinition.exists_coerceArguments_eq_error_iff`).
-/

set_option autoImplicit false

namespace GraphQL

open Json

mutual

/-- A value of the type as coercion leaves it. -/
inductive Schema.Canonical (schema : Schema) : TypeRef → Value → Prop where
  | null {type : TypeRef} : type.isNonNull = false → Canonical schema type .null
  | nonNull {type : TypeRef} {v : Value} : v.isNull = false → Canonical schema type v →
      Canonical schema (.nonNull type) v
  | string (s : String) : Canonical schema .string (.string s)
  | int {i : Int} : -0x80000000 ≤ i → i < 0x80000000 → Canonical schema .int (.int i)
  | float {n : Number} : n.toDouble.isFinite = true → Canonical schema .float (.number n)
  | id (s : String) : Canonical schema .id (.string s)
  | boolean (b : Bool) : Canonical schema .boolean (.bool b)
  | list {type : TypeRef} {items : List Value} : (∀ item ∈ items, Canonical schema type item) →
      Canonical schema (.list type) (.array items)
  | scalar {name scalar : String} (v : Value) : schema.type? name = some (.scalar scalar) →
      Canonical schema (.named name) v
  | enum {name : String} {type : EnumType} {s : String} :
      schema.type? name = some (.enum type) → s ∈ type.values →
      Canonical schema (.named name) (.string s)
  | input {name : String} {type : InputObjectType} {members : Entries Value} :
      schema.type? name = some (.input type) → CanonicalAll schema type.fields members →
      Canonical schema (.named name) (.object members)

/-- Values for declared names, in the order in which these are declared. Only a name without a
default may be left out, and only if its type is nullable. -/
inductive Schema.CanonicalAll (schema : Schema) :
    Entries (InputValue Literal) → Entries Value → Prop where
  | nil : CanonicalAll schema [] []
  | given {name : String} {d : InputValue Literal} {v : Value}
      {declared : Entries (InputValue Literal)} {values : Entries Value} :
      Canonical schema d.type v → CanonicalAll schema declared values →
      CanonicalAll schema ((name, d) :: declared) ((name, v) :: values)
  | omitted {name : String} {d : InputValue Literal} {declared : Entries (InputValue Literal)}
      {values : Entries Value} : d.default = none → d.type.isNonNull = false →
      CanonicalAll schema declared values → CanonicalAll schema ((name, d) :: declared) values

end

namespace Schema.CanonicalAll

variable {schema : Schema} {declared : Entries (InputValue Literal)} {values : Entries Value}

theorem keys_sublist (h : CanonicalAll schema declared values) :
    (Entries.keys values).Sublist (Entries.keys declared) := by
  induction declared generalizing values with
  | nil =>
    cases h
    exact .refl _
  | cons e declared ih =>
    cases h with
    | given _ h => exact (ih h).cons_cons _
    | omitted _ _ h => exact (ih h).cons _

theorem exists_of_mem (h : CanonicalAll schema declared values) {name : String} {v : Value}
    (hv : (name, v) ∈ values) : ∃ d, (name, d) ∈ declared ∧ schema.Canonical d.type v := by
  induction declared generalizing values with
  | nil =>
    cases h
    cases hv
  | cons e declared ih =>
    have hlater : ∀ {values : Entries Value}, CanonicalAll schema declared values →
        (name, v) ∈ values → ∃ d, (name, d) ∈ e :: declared ∧ schema.Canonical d.type v :=
      fun h hv =>
        let ⟨d, hd, hc⟩ := ih h hv
        ⟨d, List.mem_cons_of_mem _ hd, hc⟩
    cases h with
    | given hc h =>
      rcases List.mem_cons.1 hv with heq | hv
      · cases heq
        exact ⟨_, List.mem_cons_self, hc⟩
      · exact hlater h hv
    | omitted _ _ h => exact hlater h hv

/-- Names with a default have a value, and so have those of non-null types. -/
theorem mem_keys (h : CanonicalAll schema declared values) {name : String}
    {d : InputValue Literal} (hd : (name, d) ∈ declared)
    (hneeded : d.default.isSome = true ∨ d.type.isNonNull = true) : name ∈ Entries.keys values := by
  induction declared generalizing values with
  | nil => cases hd
  | cons e declared ih =>
    cases h with
    | given _ h =>
      rcases List.mem_cons.1 hd with heq | hd
      · cases heq
        exact List.mem_cons_self
      · exact List.mem_cons_of_mem _ (ih h hd)
    | omitted hdefault hnull h =>
      rcases List.mem_cons.1 hd with heq | hd
      · cases heq
        rw [hdefault, hnull] at hneeded
        rcases hneeded with h | h <;> cases h
      · exact ih h hd

end Schema.CanonicalAll

theorem Schema.Canonical.isNull_eq_false {schema : Schema} {type : TypeRef} {v : Value}
    (h : schema.Canonical type v) (htype : type.isNonNull = true) : v.isNull = false := by
  cases type with
  | nonNull inner =>
    cases h with
    | null hnull => cases hnull
    | nonNull hv _ => exact hv
  | _ => cases htype

/-- What coercion may make of a value: null of null only, and otherwise a canonical value. -/
def Schema.Coerces (schema : Schema) (type : TypeRef) (value v : Value) : Prop :=
  v.isNull = value.isNull ∧ schema.Canonical type v

namespace TypeRef

variable {schema : Schema}

theorem coerces_of_coerceInputScalar {type : TypeRef} {value v : Value}
    (hv : value.isNull = false) (h : type.coerceInputScalar value = .ok v) :
    schema.Coerces type value v := by
  unfold coerceInputScalar at h
  split at h
  · cases h
    exact ⟨rfl, .string _⟩
  · next value =>
    split at h
    · next i hi =>
      cases h
      unfold Value.int32? at hi
      split at hi
      · obtain ⟨-, hbounds⟩ := Option.filter_eq_some_iff.1 hi
        obtain ⟨hlow, hhigh⟩ := of_decide_eq_true hbounds
        exact ⟨rfl, .int hlow hhigh⟩
      · cases hi
    · cases h
  · next value =>
    split at h
    · next hfinite =>
      cases h
      unfold Value.isFiniteNumber at hfinite
      split at hfinite
      · exact ⟨rfl, .float hfinite⟩
      · cases hfinite
    · cases h
  · cases h
    exact ⟨rfl, .id _⟩
  · cases h
    exact ⟨rfl, .id _⟩
  · cases h
    exact ⟨rfl, .boolean _⟩
  · cases h

theorem forall_canonical_of_coerceItems {type : TypeRef}
    {coerce : Value → Except InvalidValue Value}
    (hc : ∀ value v, coerce value = .ok v → schema.Canonical type v) {items vs : List Value} :
    ∀ {index : Nat}, coerceItems coerce index items = .ok vs →
      ∀ v ∈ vs, schema.Canonical type v := by
  induction items generalizing vs with
  | nil =>
    intro index h
    cases h
    nofun
  | cons item items ih =>
    intro index h
    rw [coerceItems] at h
    split at h
    · next v hv =>
      obtain ⟨rest, hrest, rfl⟩ := map_eq_ok_iff.1 h
      exact List.forall_mem_cons.2 ⟨hc _ _ hv, ih hrest⟩
    · cases h

/-- Coercion to a type is canonical if coercion to the named types in it is. -/
theorem coerces_of_coerceInputWith {named : String → Value → Except InvalidValue Value}
    (hn : ∀ name value v, value.isNull = false → named name value = .ok v →
      schema.Coerces (.named name) value v) :
    ∀ {type : TypeRef} {value v : Value}, coerceInputWith named type value = .ok v →
      schema.Coerces type value v := by
  intro type
  induction type with
  | nonNull inner ih =>
    intro value v h
    cases value with
    | null => cases h
    | _ =>
      obtain ⟨hnull, hc⟩ := ih (by simpa [coerceInputWith] using h)
      exact ⟨hnull, .nonNull hnull hc⟩
  | list inner ih =>
    have hone : ∀ {value v : Value}, value.isNull = false →
        (coerceInputWith named inner value).map (fun v => Value.array [v]) = .ok v →
        schema.Coerces (.list inner) value v := by
      intro value v hnull h
      obtain ⟨u, hu, rfl⟩ := map_eq_ok_iff.1 h
      exact ⟨hnull.symm, .list (by simpa using (ih hu).2)⟩
    intro value v h
    cases value with
    | null =>
      cases h
      exact ⟨rfl, .null rfl⟩
    | array items =>
      rw [coerceInputWith] at h
      obtain ⟨vs, hvs, rfl⟩ := map_eq_ok_iff.1 h
      exact ⟨rfl, .list (forall_canonical_of_coerceItems (fun _ _ hu => (ih hu).2) hvs)⟩
    | _ => exact hone rfl (by simpa [coerceInputWith] using h)
  | named name =>
    intro value v h
    cases value with
    | null =>
      cases h
      exact ⟨rfl, .null rfl⟩
    | _ => exact hn name _ v rfl (by simpa [coerceInputWith] using h)
  | string | int | float | id | boolean =>
    intro value v h
    cases value with
    | null =>
      cases h
      exact ⟨rfl, .null rfl⟩
    | _ => exact coerces_of_coerceInputScalar rfl (by simpa [coerceInputWith] using h)

end TypeRef

namespace InputObjectType

variable {schema : Schema} {coerce : TypeRef → Value → Except InvalidValue Value}
  {provided : Entries Value}

theorem canonicalAll_of_coerceFields
    (hc : ∀ type value v, coerce type value = .ok v → schema.Canonical type v)
    {fields : Entries (InputValue Literal)} {members : Entries Value}
    (h : coerceFields coerce provided fields = .ok members) :
    schema.CanonicalAll fields members := by
  induction fields generalizing members with
  | nil =>
    cases h
    exact .nil
  | cons e fields ih =>
    obtain ⟨name, field⟩ := e
    rw [coerceFields] at h
    split at h
    · next value hvalue =>
      split at h
      · next v hv =>
        obtain ⟨rest, hrest, rfl⟩ := map_eq_ok_iff.1 h
        exact .given (hc _ _ _ hv) (ih hrest)
      · cases h
    · next hnone =>
      split at h
      · cases h
      · next hnull =>
        have hdefault : field.default = none := by
          obtain ⟨-, hdefault⟩ := Option.or_eq_none_iff.1 hnone
          exact Option.map_eq_none_iff.1 hdefault
        exact .omitted hdefault (by simpa using hnull) (ih h)

theorem canonicalAll_of_coerce
    (hc : ∀ type value v, coerce type value = .ok v → schema.Canonical type v)
    {type : InputObjectType} {members : Entries Value}
    (h : type.coerce coerce provided = .ok members) : schema.CanonicalAll type.fields members := by
  unfold InputObjectType.coerce at h
  split at h
  · cases h
  · exact canonicalAll_of_coerceFields hc h

end InputObjectType

theorem Schema.coerces_of_coerceNamedInput {schema : Schema} {room : Nat} {name : String}
    {value v : Value} (hnull : value.isNull = false)
    (h : schema.coerceNamedInput room name value = .ok v) :
    schema.Coerces (.named name) value v := by
  induction room using Nat.strongRecOn generalizing name value v with
  | ind room ih =>
    unfold coerceNamedInput at h
    split at h
    · next hd =>
      cases h
      exact ⟨rfl, .scalar _ hd⟩
    · next type hd =>
      split at h
      · next s hs =>
        split at h
        · next hmem =>
          cases h
          unfold Value.string? at hs
          split at hs <;> cases hs
          exact ⟨rfl, .enum hd hmem⟩
        · cases h
      · cases h
    · next type hd =>
      split at h
      · next provided =>
        split at h
        · cases h
        · next room =>
          have hcoerce : ∀ type value v,
              TypeRef.coerceInputWith (schema.coerceNamedInput room) type value = .ok v →
              schema.Canonical type v := fun type value v hv =>
            (TypeRef.coerces_of_coerceInputWith (fun _ _ _ => ih room (Nat.lt_succ_self _)) hv).2
          obtain ⟨members, hm, rfl⟩ := map_eq_ok_iff.1 h
          exact ⟨rfl, .input hd (InputObjectType.canonicalAll_of_coerce hcoerce hm)⟩
      · cases h
    · cases h

/-- A coerced value is canonical, whatever it was before. -/
theorem TypeRef.canonical_of_coerceInput {schema : Schema} {type : TypeRef} {value v : Value}
    (h : type.coerceInput schema value = .ok v) : schema.Canonical type v :=
  (coerces_of_coerceInputWith (fun _ _ _ => Schema.coerces_of_coerceNamedInput) h).2

namespace FieldDefinition

variable {schema : Schema} {bindings : Entries Value} {given : List (Argument Literal)}

theorem canonicalAll_of_coerceDefined {declared : Entries (InputValue Literal)}
    {arguments : Entries Value} (h : coerceDefined schema bindings given declared = .ok arguments) :
    schema.CanonicalAll declared arguments := by
  induction declared generalizing arguments with
  | nil =>
    cases h
    exact .nil
  | cons e declared ih =>
    obtain ⟨name, d⟩ := e
    rw [coerceDefined] at h
    split at h
    · next value hvalue =>
      split at h
      · next v hv =>
        obtain ⟨rest, hrest, rfl⟩ := map_eq_ok_iff.1 h
        exact .given (TypeRef.canonical_of_coerceInput hv) (ih hrest)
      · cases h
    · next hnone =>
      split at h
      · cases h
      · next hnull =>
        have hdefault : d.default = none := by
          obtain ⟨-, hdefault⟩ := Option.or_eq_none_iff.1 hnone
          exact Option.map_eq_none_iff.1 hdefault
        exact .omitted hdefault (by simpa using hnull) (ih h)

theorem canonicalAll_of_coerceArguments {d : FieldDefinition} {arguments : Entries Value}
    (h : d.coerceArguments schema bindings given = .ok arguments) :
    schema.CanonicalAll d.arguments arguments := by
  unfold coerceArguments at h
  split at h
  · cases h
  · exact canonicalAll_of_coerceDefined h

end FieldDefinition

/-- What can be wrong with one argument: it must have a value and has none, not even a default, or
its value does not coerce. -/
inductive InputValue.Fault (schema : Schema) (bindings : Entries Value)
    (given : List (Argument Literal)) (d : InputValue Literal) : Prop where
  | missing : d.type.isNonNull = true → d.argumentValue? bindings given = none →
      Fault schema bindings given d
  | invalid {value : Value} {e : InvalidValue} : d.argumentValue? bindings given = some value →
      d.type.coerceInput schema value = .error e → Fault schema bindings given d

/-- What can be wrong with the arguments that a field is given. -/
inductive FieldDefinition.Fault (schema : Schema) (bindings : Entries Value)
    (given : List (Argument Literal)) (d : FieldDefinition) : Prop where
  | undefined {a : Argument Literal} : a ∈ given → Entries.contains a.name d.arguments = false →
      Fault schema bindings given d
  | declared {name : String} {argument : InputValue Literal} : (name, argument) ∈ d.arguments →
      argument.Fault schema bindings given → Fault schema bindings given d

namespace FieldDefinition

variable {schema : Schema} {bindings : Entries Value} {given : List (Argument Literal)}

theorem exists_fault_of_coerceDefined {declared : Entries (InputValue Literal)}
    {e : ArgumentError} (h : coerceDefined schema bindings given declared = .error e) :
    ∃ name d, (name, d) ∈ declared ∧ d.Fault schema bindings given := by
  induction declared with
  | nil => cases h
  | cons entry declared ih =>
    obtain ⟨name, d⟩ := entry
    have hlater : coerceDefined schema bindings given declared = .error e →
        ∃ name' d', (name', d') ∈ (name, d) :: declared ∧ d'.Fault schema bindings given :=
      fun h =>
        let ⟨name, d, hd, hf⟩ := ih h
        ⟨name, d, List.mem_cons_of_mem _ hd, hf⟩
    rw [coerceDefined] at h
    split at h
    · next value hvalue =>
      split at h
      · cases hrest : coerceDefined schema bindings given declared with
        | ok rest =>
          rw [hrest] at h
          cases h
        | error e' =>
          rw [hrest] at h
          cases h
          exact hlater hrest
      · next hinvalid => exact ⟨name, d, List.mem_cons_self, .invalid hvalue hinvalid⟩
    · next hnone =>
      split at h
      · next hnull => exact ⟨name, d, List.mem_cons_self, .missing hnull hnone⟩
      · exact hlater h

theorem exists_coerceDefined_eq_error {declared : Entries (InputValue Literal)} {name : String}
    {d : InputValue Literal} (hd : (name, d) ∈ declared) (hf : d.Fault schema bindings given) :
    ∃ e, coerceDefined schema bindings given declared = .error e := by
  induction declared with
  | nil => cases hd
  | cons entry declared ih =>
    obtain ⟨name', d'⟩ := entry
    rw [coerceDefined]
    rcases List.mem_cons.1 hd with heq | hd
    · cases heq
      cases hf with
      | missing hnull hnone =>
        simp only [hnone, hnull, if_true]
        exact ⟨_, rfl⟩
      | invalid hvalue hinvalid =>
        simp only [hvalue, hinvalid]
        exact ⟨_, rfl⟩
    · obtain ⟨e, he⟩ := ih hd
      rw [he]
      split
      · split
        · exact ⟨e, rfl⟩
        · exact ⟨_, rfl⟩
      · split
        · exact ⟨_, rfl⟩
        · exact ⟨e, rfl⟩

/-- Arguments are refused just when they have a fault. -/
theorem exists_coerceArguments_eq_error_iff {d : FieldDefinition} :
    (∃ e, d.coerceArguments schema bindings given = .error e) ↔
      d.Fault schema bindings given := by
  unfold coerceArguments
  constructor
  · rintro ⟨e, h⟩
    split at h
    · next a ha =>
      exact .undefined (List.mem_of_find?_eq_some ha) (by simpa using List.find?_some ha)
    · obtain ⟨name, argument, ha, hf⟩ := exists_fault_of_coerceDefined h
      exact .declared ha hf
  · intro hf
    split
    · exact ⟨_, rfl⟩
    · next hnone =>
      cases hf with
      | undefined ha hc => exact absurd hc (by simpa using List.find?_eq_none.1 hnone _ ha)
      | declared ha hf => exact exists_coerceDefined_eq_error ha hf

end FieldDefinition

end GraphQL
