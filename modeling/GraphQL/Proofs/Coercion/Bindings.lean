import GraphQL.Coercion.Variables
import GraphQL.Proofs.Coercion.Canonical

/-!
What the variables of an operation are bound to, and what is reported of those that cannot be
bound.

Each declaration is fine or has one fault, whatever stands beside it. The coercion of all of them
is the list of faults, or else the map of bindings in which the last declaration of a name counts
(`coerceVariables_complete`).
-/

set_option autoImplicit false

namespace GraphQL

open Json

namespace TypeRef

theorem map_ne_error_null {α β : Type} {x : Except InvalidValue α} {f : α → β}
    (h : x ≠ .error .null) : x.map f ≠ .error .null := by
  cases x with
  | ok a => simp [Except.map]
  | error e => simpa [Except.map] using h

theorem coerceInputScalar_ne_error_null (type : TypeRef) (value : Value) :
    type.coerceInputScalar value ≠ .error .null := by
  unfold coerceInputScalar
  repeat' split
  all_goals simp

theorem coerceItems_ne_error_null {coerce : Value → Except InvalidValue Value}
    {items : List Value} : ∀ {index : Nat}, coerceItems coerce index items ≠ .error .null := by
  induction items with
  | nil => simp [coerceItems]
  | cons item items ih =>
    intro index
    rw [coerceItems]
    split
    · exact map_ne_error_null ih
    · simp

/-- A null deep inside of a value is not reported as a null of the value itself. -/
theorem coerceInputWith_ne_error_null {named : String → Value → Except InvalidValue Value}
    (hn : ∀ name value, named name value ≠ .error .null) (type : TypeRef) {value : Value}
    (hv : value.isNull = false) : coerceInputWith named type value ≠ .error .null := by
  induction type generalizing value with
  | nonNull inner ih =>
    cases value with
    | null => cases hv
    | _ => simpa [coerceInputWith] using ih rfl
  | list inner ih =>
    cases value with
    | null => cases hv
    | array items => exact map_ne_error_null coerceItems_ne_error_null
    | _ => exact map_ne_error_null (ih rfl)
  | named name =>
    cases value with
    | null => cases hv
    | _ => simpa [coerceInputWith] using hn name _
  | string | int | float | id | boolean =>
    cases value with
    | null => cases hv
    | _ => simpa [coerceInputWith] using coerceInputScalar_ne_error_null _ _

end TypeRef

theorem Json.Value.eq_null_of_isNull {value : Value} (h : value.isNull = true) :
    value = .null := by
  cases value <;> first | rfl | cases h

theorem InputObjectType.coerceFields_ne_error_null
    {coerce : TypeRef → Value → Except InvalidValue Value} {provided : Entries Value}
    {fields : Entries (InputValue Literal)} :
    coerceFields coerce provided fields ≠ .error .null := by
  induction fields with
  | nil => simp [coerceFields]
  | cons e fields ih =>
    rw [coerceFields]
    split
    · split
      · exact TypeRef.map_ne_error_null ih
      · simp
    · split
      · simp
      · exact ih

theorem Schema.coerceNamedInput_ne_error_null (schema : Schema) (room : Nat) (name : String)
    (value : Value) : schema.coerceNamedInput room name value ≠ .error .null := by
  have hobject : ∀ (type : InputObjectType) coerce provided,
      (type.coerce coerce provided).map Value.object ≠ .error .null := by
    intro type coerce provided
    unfold InputObjectType.coerce
    split
    · simp [Except.map]
    · exact TypeRef.map_ne_error_null InputObjectType.coerceFields_ne_error_null
  unfold coerceNamedInput
  repeat' split
  all_goals first
    | exact hobject _ _ _
    | simp

theorem TypeRef.coerceInput_null (schema : Schema) (type : TypeRef) :
    type.coerceInput schema .null = if type.isNonNull then .error .null else .ok .null := by
  cases type <;> rfl

/-- The error of a null is for a null of a non-null type only. -/
theorem TypeRef.coerceInput_eq_error_null_iff {schema : Schema} {type : TypeRef} {value : Value} :
    type.coerceInput schema value = .error .null ↔
      type.isNonNull = true ∧ value.isNull = true := by
  cases hv : value.isNull with
  | false =>
    have hne := coerceInputWith_ne_error_null
      (schema.coerceNamedInput_ne_error_null (value.depth + schema.defaultDepth + 1)) type hv
    simpa [coerceInput] using hne
  | true =>
    obtain rfl := Value.eq_null_of_isNull hv
    rw [coerceInput_null]
    cases type.isNonNull <;> simp

namespace VariableDefinition

variable {schema : Schema} {provided : Entries Value} {d : VariableDefinition Literal}

/-- A declaration without a value that needs none, or one whose value coerces to its type. -/
inductive Fine (schema : Schema) (provided : Entries Value) (d : VariableDefinition Literal) :
    Prop where
  | unbound : d.value? provided = none → d.type.isNonNull = false → Fine schema provided d
  | bound {value v : Value} : d.value? provided = some value →
      d.type.coerceInput schema value = .ok v → Fine schema provided d

/-- What is wrong with a declaration: its type is non-null, and its value is absent or null; or
its value is another one and does not coerce. -/
inductive Fault (schema : Schema) (provided : Entries Value) (d : VariableDefinition Literal) :
    VariableError → Prop where
  | missing : d.type.isNonNull = true →
      (∀ value, d.value? provided = some value → value.isNull = true) →
      Fault schema provided d ⟨d.name, d.type.render, none⟩
  | invalid {value : Value} {e : InvalidValue} : d.value? provided = some value →
      value.isNull = false → d.type.coerceInput schema value = .error e →
      Fault schema provided d ⟨d.name, d.type.render, some e.message⟩

theorem coerce_eq_ok_none_iff :
    d.coerce schema provided = .ok none ↔
      d.value? provided = none ∧ d.type.isNonNull = false := by
  unfold coerce
  split
  · next hvalue =>
    rw [hvalue]
    split <;> simp
  · next hnone =>
    rw [hnone]
    cases d.type.isNonNull <;> simp

theorem coerce_eq_ok_some_iff {v : Value} :
    d.coerce schema provided = .ok (some v) ↔
      ∃ value, d.value? provided = some value ∧ d.type.coerceInput schema value = .ok v := by
  unfold coerce
  split
  · next value hvalue =>
    rw [hvalue]
    split
    · next hv => simp [hv]
    · next hv => simp [hv]
    · next hv => simp [hv]
  · next hnone =>
    rw [hnone]
    split <;> simp

theorem coerce_eq_error_iff {e : VariableError} :
    d.coerce schema provided = .error e ↔ d.Fault schema provided e := by
  constructor
  · intro h
    unfold coerce at h
    split at h
    · next value hvalue =>
      split at h
      · cases h
      · next hnull =>
        obtain ⟨htype, hv⟩ := TypeRef.coerceInput_eq_error_null_iff.1 hnull
        cases h
        exact .missing htype fun _ h => by cases hvalue.symm.trans h; exact hv
      · next inner hne hinner =>
        cases h
        refine .invalid hvalue ?_ hinner
        by_contra hv
        obtain rfl := Value.eq_null_of_isNull (by simpa using hv)
        rw [TypeRef.coerceInput_null] at hinner
        split at hinner
        · cases hinner
          exact hne rfl
        · cases hinner
    · next hnone =>
      split at h
      · next htype =>
        cases h
        exact .missing htype fun _ h => by cases hnone.symm.trans h
      · cases h
  · intro h
    cases h with
    | missing htype hnull =>
      unfold coerce
      split
      · next value hvalue =>
        rw [TypeRef.coerceInput_eq_error_null_iff.2 ⟨htype, hnull value hvalue⟩]
      · exact if_pos htype
    | @invalid value e hvalue hv he =>
      have hne : e ≠ .null := by
        rintro rfl
        have := (TypeRef.coerceInput_eq_error_null_iff.1 he).2
        simp [hv] at this
      unfold coerce
      simp only [hvalue, he]

theorem fine_iff : d.Fine schema provided ↔ ∃ v?, d.coerce schema provided = .ok v? := by
  constructor
  · intro h
    cases h with
    | unbound hnone htype => exact ⟨none, coerce_eq_ok_none_iff.2 ⟨hnone, htype⟩⟩
    | bound hvalue hv => exact ⟨some _, coerce_eq_ok_some_iff.2 ⟨_, hvalue, hv⟩⟩
  · rintro ⟨v?, h⟩
    cases v? with
    | none =>
      obtain ⟨hnone, htype⟩ := coerce_eq_ok_none_iff.1 h
      exact .unbound hnone htype
    | some v =>
      obtain ⟨value, hvalue, hv⟩ := coerce_eq_ok_some_iff.1 h
      exact .bound hvalue hv

theorem coerce_congr {provided' : Entries Value}
    (h : Entries.get? d.name provided' = Entries.get? d.name provided) :
    d.coerce schema provided' = d.coerce schema provided := by
  unfold coerce value?
  rw [h]

/-- The binding that a declaration makes. -/
def binding? (schema : Schema) (provided : Entries Value) (d : VariableDefinition Literal) :
    Option (String × Value) :=
  match d.coerce schema provided with
  | .ok (some v) => some (d.name, v)
  | _ => none

def fault? (schema : Schema) (provided : Entries Value) (d : VariableDefinition Literal) :
    Option VariableError :=
  match d.coerce schema provided with
  | .ok _ => none
  | .error e => some e

end VariableDefinition

open VariableDefinition

section

variable {schema : Schema} {provided : Entries Value}
  {definitions : List (VariableDefinition Literal)}

/-- What one more declaration makes of the bindings and the errors so far. -/
def coerceNext (schema : Schema) (provided : Entries Value)
    (soFar : Entries Value × List VariableError) (d : VariableDefinition Literal) :
    Entries Value × List VariableError :=
  match d.coerce schema provided with
  | .ok (some v) => (Entries.insert d.name v soFar.1, soFar.2)
  | .ok none => soFar
  | .error e => (soFar.1, soFar.2 ++ [e])

/-- Bindings and faults do not depend on each other: both can be listed apart. -/
theorem coerceVariables_eq (schema : Schema) (definitions : List (VariableDefinition Literal))
    (provided : Entries Value) :
    coerceVariables schema definitions provided =
      if (definitions.filterMap (fault? schema provided)).isEmpty then
        .ok (Entries.ofList (definitions.filterMap (binding? schema provided)))
      else .error (definitions.filterMap (fault? schema provided)) := by
  have hfold : ∀ (bound : Entries Value) (errors : List VariableError),
      definitions.foldl (coerceNext schema provided) (bound, errors) =
      (Entries.insertAll bound (definitions.filterMap (binding? schema provided)),
        errors ++ definitions.filterMap (fault? schema provided)) := by
    induction definitions with
    | nil => simp [Entries.insertAll]
    | cons d definitions ih =>
      intro bound errors
      rw [List.foldl_cons, List.filterMap_cons, List.filterMap_cons, coerceNext, binding?, fault?]
      cases d.coerce schema provided with
      | error e => simp [ih]
      | ok v? => cases v? <;> simp [ih, Entries.insertAll]
  exact congrArg (fun r : Entries Value × List VariableError =>
    (if r.2.isEmpty then .ok r.1 else .error r.2 : Except (List VariableError) (Entries Value)))
    (hfold [] [])

/-- A variable has the value that the last of its declarations with a value comes to. -/
def LastBinding (schema : Schema) (provided : Entries Value)
    (definitions : List (VariableDefinition Literal)) (name : String) (v : Value) : Prop :=
  ∃ before d after value, definitions = before ++ d :: after ∧ d.name = name ∧
    d.value? provided = some value ∧ d.type.coerceInput schema value = .ok v ∧
      ∀ d' ∈ after, d'.name = name → d'.value? provided = none

/-- The bindings of variables whose declarations are all fine. -/
structure Binds (schema : Schema) (provided : Entries Value)
    (definitions : List (VariableDefinition Literal)) (bindings : Entries Value) : Prop where
  nodup : (Entries.keys bindings).Nodup
  mem_keys_iff : ∀ name, name ∈ Entries.keys bindings ↔
    ∃ d ∈ definitions, d.name = name ∧ (d.value? provided).isSome = true
  get?_eq_some_iff : ∀ name v, Entries.get? name bindings = some v ↔
    LastBinding schema provided definitions name v
  nonNull : ∀ d ∈ definitions, d.type.isNonNull = true → d.name ∈ Entries.keys bindings
  nonNull_of_once : ∀ d ∈ definitions, d.type.isNonNull = true →
    (∀ d' ∈ definitions, d'.name = d.name → d' = d) →
    ∃ v, Entries.get? d.name bindings = some v ∧ v.isNull = false

/-- One error for each declaration with a fault, in the order of the declarations. -/
inductive Reports (schema : Schema) (provided : Entries Value) :
    List (VariableDefinition Literal) → List VariableError → Prop where
  | nil : Reports schema provided [] []
  | fine {d : VariableDefinition Literal} {definitions : List (VariableDefinition Literal)}
      {errors : List VariableError} : d.Fine schema provided →
      Reports schema provided definitions errors →
      Reports schema provided (d :: definitions) errors
  | fault {d : VariableDefinition Literal} {definitions : List (VariableDefinition Literal)}
      {e : VariableError} {errors : List VariableError} : d.Fault schema provided e →
      Reports schema provided definitions errors →
      Reports schema provided (d :: definitions) (e :: errors)

theorem binding?_eq_some_iff {d : VariableDefinition Literal} {name : String} {v : Value} :
    d.binding? schema provided = some (name, v) ↔
      d.name = name ∧ ∃ value, d.value? provided = some value ∧
        d.type.coerceInput schema value = .ok v := by
  rw [← coerce_eq_ok_some_iff, binding?]
  split
  · next h => simp [h]
  · next h => simpa using fun _ => h v

theorem fault?_eq_some_iff {d : VariableDefinition Literal} {e : VariableError} :
    d.fault? schema provided = some e ↔ d.Fault schema provided e := by
  rw [← coerce_eq_error_iff, fault?]
  cases d.coerce schema provided <;> simp

theorem fault?_eq_none_iff {d : VariableDefinition Literal} :
    d.fault? schema provided = none ↔ d.Fine schema provided := by
  rw [fine_iff, fault?]
  cases d.coerce schema provided <;> simp

theorem reports_filterMap_fault? (definitions : List (VariableDefinition Literal)) :
    Reports schema provided definitions (definitions.filterMap (fault? schema provided)) := by
  induction definitions with
  | nil => exact .nil
  | cons d definitions ih =>
    rw [List.filterMap_cons]
    split
    · next h => exact .fine (fault?_eq_none_iff.1 h) ih
    · next e h => exact .fault (fault?_eq_some_iff.1 h) ih

/-- A fine declaration with a value makes a binding. -/
theorem VariableDefinition.Fine.binding?_eq_none {d : VariableDefinition Literal}
    (hd : d.Fine schema provided) (h : d.binding? schema provided = none) :
    d.value? provided = none := by
  cases hd with
  | unbound hnone => exact hnone
  | bound hvalue hv =>
    have := binding?_eq_some_iff.2 ⟨rfl, _, hvalue, hv⟩
    cases h.symm.trans this

theorem get?_filterMap_binding?_iff (hf : ∀ d ∈ definitions, d.Fine schema provided)
    {name : String} {v : Value} :
    Entries.get? name (Entries.ofList (definitions.filterMap (binding? schema provided))) = some v ↔
      LastBinding schema provided definitions name v := by
  rw [Entries.get?_ofList_eq_some_iff]
  constructor
  · rintro ⟨before, after, heq, hlast⟩
    obtain ⟨before', rest, rfl, -, hrest⟩ := List.filterMap_eq_append_iff.1 heq
    obtain ⟨skipped, d, after', rfl, -, hd, rfl⟩ := List.filterMap_eq_cons_iff.1 hrest
    obtain ⟨hname, value, hvalue, hv⟩ := binding?_eq_some_iff.1 hd
    refine ⟨before' ++ skipped, d, after', value, by simp, hname, hvalue, hv, ?_⟩
    intro d' hd' hname'
    cases hb : d'.binding? schema provided with
    | none => exact (hf d' (by simp [hd'])).binding?_eq_none hb
    | some b =>
      have hkey : b.1 = name := (binding?_eq_some_iff.1 hb).1.symm.trans hname'
      exact absurd (List.mem_map.2 ⟨b, List.mem_filterMap.2 ⟨d', hd', hb⟩, hkey⟩) hlast
  · rintro ⟨before, d, after, value, rfl, hname, hvalue, hv, hlast⟩
    have hd := binding?_eq_some_iff.2 ⟨hname, value, hvalue, hv⟩
    refine ⟨before.filterMap (binding? schema provided),
      after.filterMap (binding? schema provided), by simp [hd], fun hmem => ?_⟩
    obtain ⟨⟨name', v'⟩, hb, rfl⟩ := List.mem_map.1 hmem
    obtain ⟨d', hd', hb⟩ := List.mem_filterMap.1 hb
    obtain ⟨hname', value', hvalue', -⟩ := binding?_eq_some_iff.1 hb
    cases (hlast d' hd' hname').symm.trans hvalue'

theorem mem_keys_filterMap_binding?_iff (hf : ∀ d ∈ definitions, d.Fine schema provided)
    {name : String} :
    name ∈ Entries.keys (definitions.filterMap (binding? schema provided)) ↔
      ∃ d ∈ definitions, d.name = name ∧ (d.value? provided).isSome = true := by
  constructor
  · intro h
    obtain ⟨⟨name', v⟩, hb, rfl⟩ := List.mem_map.1 h
    obtain ⟨d, hd, hb⟩ := List.mem_filterMap.1 hb
    obtain ⟨hname, value, hvalue, -⟩ := binding?_eq_some_iff.1 hb
    exact ⟨d, hd, hname, by rw [hvalue]; rfl⟩
  · rintro ⟨d, hd, rfl, hsome⟩
    cases hb : d.binding? schema provided with
    | none =>
      rw [(hf d hd).binding?_eq_none hb] at hsome
      cases hsome
    | some b =>
      have hkey : b.1 = d.name := (binding?_eq_some_iff.1 hb).1.symm
      exact List.mem_map.2 ⟨b, List.mem_filterMap.2 ⟨d, hd, hb⟩, hkey⟩

theorem VariableDefinition.Fine.isSome_value? {d : VariableDefinition Literal}
    (hd : d.Fine schema provided) (htype : d.type.isNonNull = true) :
    (d.value? provided).isSome = true := by
  cases hd with
  | unbound _ hnull =>
    rw [htype] at hnull
    cases hnull
  | bound hvalue _ =>
    rw [hvalue]
    rfl

theorem binds_of_forall_fine (hf : ∀ d ∈ definitions, d.Fine schema provided) :
    Binds schema provided definitions
      (Entries.ofList (definitions.filterMap (binding? schema provided))) := by
  have hkeys : ∀ name, name ∈ Entries.keys (Entries.ofList
      (definitions.filterMap (binding? schema provided))) ↔
        ∃ d ∈ definitions, d.name = name ∧ (d.value? provided).isSome = true := by
    intro name
    rw [Entries.ofList, Entries.mem_keys_insertAll, mem_keys_filterMap_binding?_iff hf]
    simp [Entries.keys]
  have hnonNull : ∀ d ∈ definitions, d.type.isNonNull = true →
      d.name ∈ Entries.keys (Entries.ofList
        (definitions.filterMap (binding? schema provided))) :=
    fun d hd htype => (hkeys d.name).2 ⟨d, hd, rfl, (hf d hd).isSome_value? htype⟩
  refine ⟨Entries.nodup_keys_ofList _, hkeys, fun _ _ => get?_filterMap_binding?_iff hf, hnonNull,
    fun d hd htype honce => ?_⟩
  cases hget : Entries.get? d.name (Entries.ofList
      (definitions.filterMap (binding? schema provided))) with
  | none => exact absurd (hnonNull d hd htype) (Entries.get?_eq_none_iff.1 hget)
  | some v =>
    obtain ⟨before, d', after, value, rfl, hname, -, hv, -⟩ :=
      (get?_filterMap_binding?_iff hf).1 hget
    obtain rfl := honce d' (by simp) hname
    exact ⟨v, rfl, (TypeRef.canonical_of_coerceInput hv).isNull_eq_false htype⟩

/-- Coercion of variables succeeds just when each declaration is fine, and then each name has the
value of the last of its declarations with one; otherwise each fault is reported, in the order of
the declarations. Values under other names play no part. -/
theorem coerceVariables_complete (schema : Schema)
    (definitions : List (VariableDefinition Literal)) (provided : Entries Value) :
    ((∃ bindings, coerceVariables schema definitions provided = .ok bindings) ↔
        ∀ d ∈ definitions, d.Fine schema provided) ∧
      (∀ bindings, coerceVariables schema definitions provided = .ok bindings →
        Binds schema provided definitions bindings) ∧
      (∀ errors, coerceVariables schema definitions provided = .error errors →
        Reports schema provided definitions errors) ∧
      ∀ provided', (∀ d ∈ definitions,
          Entries.get? d.name provided' = Entries.get? d.name provided) →
        coerceVariables schema definitions provided' =
          coerceVariables schema definitions provided := by
  have hempty : (definitions.filterMap (fault? schema provided)).isEmpty = true ↔
      ∀ d ∈ definitions, d.Fine schema provided := by
    simp [List.filterMap_eq_nil_iff, fault?_eq_none_iff]
  refine ⟨?_, fun bindings h => ?_, fun errors h => ?_, fun provided' h => ?_⟩
  · rw [coerceVariables_eq, ← hempty]
    split
    · next h => simp [h]
    · next h => simp [h]
  · rw [coerceVariables_eq] at h
    split at h
    · next hfine =>
      cases h
      exact binds_of_forall_fine (hempty.1 hfine)
    · cases h
  · rw [coerceVariables_eq] at h
    split at h
    · cases h
    · cases h
      exact reports_filterMap_fault? definitions
  · have hfault : definitions.filterMap (fault? schema provided') =
        definitions.filterMap (fault? schema provided) :=
      List.filterMap_congr fun d hd => by rw [fault?, fault?, coerce_congr (h d hd)]
    have hbinding : definitions.filterMap (binding? schema provided') =
        definitions.filterMap (binding? schema provided) :=
      List.filterMap_congr fun d hd => by rw [binding?, binding?, coerce_congr (h d hd)]
    rw [coerceVariables_eq, coerceVariables_eq, hfault, hbinding]

theorem coerceVariables_complete_repeated :
    ∃ bindings, coerceVariables ⟨[], ⟨none, none, none⟩, []⟩
        [⟨"x", .nonNull .boolean, none, none⟩, ⟨"x", .list .boolean, none, none⟩]
        [("y", .null), ("x", .bool true)] = .ok bindings ∧
      Entries.get? "x" bindings = some (.array [.bool true]) := by
  have hcomplete := coerceVariables_complete ⟨[], ⟨none, none, none⟩, []⟩
    [⟨"x", .nonNull .boolean, none, none⟩, ⟨"x", .list .boolean, none, none⟩]
    [("y", .null), ("x", .bool true)]
  have hvalue : ∀ d ∈ [(⟨"x", .nonNull .boolean, none, none⟩ : VariableDefinition Literal),
      ⟨"x", .list .boolean, none, none⟩],
      d.value? [("y", .null), ("x", .bool true)] = some (.bool true) := by
    simp [value?, Entries.get?]
  have hfine : ∀ d ∈ [(⟨"x", .nonNull .boolean, none, none⟩ : VariableDefinition Literal),
      ⟨"x", .list .boolean, none, none⟩],
      d.Fine ⟨[], ⟨none, none, none⟩, []⟩ [("y", .null), ("x", .bool true)] := by
    intro d hd
    have hv := hvalue d hd
    rcases List.mem_pair.1 hd with rfl | rfl
    · exact .bound hv rfl
    · exact .bound hv rfl
  obtain ⟨bindings, h⟩ := hcomplete.1.2 hfine
  refine ⟨bindings, h, ((hcomplete.2.1 bindings h).get?_eq_some_iff "x" _).2 ?_⟩
  exact ⟨[⟨"x", .nonNull .boolean, none, none⟩], _, [], _, rfl, rfl, hvalue _ (by simp), rfl,
    by simp⟩

end

end GraphQL
