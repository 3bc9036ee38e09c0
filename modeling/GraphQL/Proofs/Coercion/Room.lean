import GraphQL.Coercion.Input

/-!
The room for nested input objects that a coercion is given.

Where there is too little of it, coercion stops at an input object and says so. Any other answer
does not depend on the room (`Schema.coerceWithin_eq`).
-/

set_option autoImplicit false

namespace GraphQL

open Json

section Endless

variable {α β : Type}

theorem endless_iff {r : Except InvalidValue α} :
    Endless r ↔ ∃ e, r = .error e ∧ e.isEndless = true := by
  cases r <;> simp [Endless]

@[simp]
theorem endless_ok (a : α) : ¬ Endless (.ok a : Except InvalidValue α) := id

@[simp]
theorem endless_map {r : Except InvalidValue α} {f : α → β} : Endless (r.map f) ↔ Endless r := by
  cases r <;> rfl

/-- The first answer is the other one unless it stopped for want of room. -/
def Refines (r r' : Except InvalidValue α) : Prop := Endless r ∨ r = r'

namespace Refines

variable {r r' : Except InvalidValue α}

theorem refl (r : Except InvalidValue α) : Refines r r := .inr rfl

theorem trans {r'' : Except InvalidValue α} (h : Refines r r') (h' : Refines r' r'') :
    Refines r r'' := by
  rcases h with h | rfl
  · exact .inl h
  · exact h'

theorem map (h : Refines r r') (f : α → β) : Refines (r.map f) (r'.map f) := by
  rcases h with h | rfl
  · exact .inl (endless_map.2 h)
  · exact refl _

theorem eq (h : Refines r r') (hr : ¬ Endless r) : r = r' := h.resolve_left hr

/-- Where more room changes only answers that stopped for want of it, one that did not stop is
what all others refine. -/
theorem of_not_endless {answer : Nat → Except InvalidValue α}
    (hmono : ∀ room room', room ≤ room' → Refines (answer room) (answer room'))
    {room room' : Nat} (h : ¬ Endless (answer room')) : Refines (answer room) (answer room') := by
  rcases Nat.le_total room room' with hle | hle
  · exact hmono room room' hle
  · exact .inr ((hmono room' room hle).eq h).symm

end Refines

end Endless

namespace TypeRef

variable {coerce coerce' : Value → Except InvalidValue Value}

theorem coerceItems_append (index : Nat) (before after : List Value) :
    coerceItems coerce index (before ++ after) =
      match coerceItems coerce index before with
      | .ok vs => (coerceItems coerce (index + before.length) after).map (vs ++ ·)
      | .error e => .error e := by
  induction before generalizing index with
  | nil => cases h : coerceItems coerce index after <;> simp [coerceItems, Except.map, h]
  | cons item before ih =>
    rw [List.cons_append, coerceItems, coerceItems]
    cases coerce item with
    | error e => rfl
    | ok v =>
      rw [ih, List.length_cons, Nat.add_right_comm, Nat.add_assoc]
      cases coerceItems coerce (index + 1) before with
      | error e => rfl
      | ok vs => cases coerceItems coerce (index + (before.length + 1)) after <;> simp [Except.map]

/-- An item stops the coercion of all items if those before it have values. -/
theorem endless_coerceItems {index : Nat} {before after vs : List Value} {item : Value}
    (hbefore : Refines (coerceItems coerce index before) (.ok vs)) (hitem : Endless (coerce item)) :
    Endless (coerceItems coerce index (before ++ item :: after)) := by
  obtain ⟨e, hitem, he⟩ := endless_iff.1 hitem
  rw [coerceItems_append]
  rcases hbefore with hend | hok
  · obtain ⟨e, herror, he⟩ := endless_iff.1 hend
    rw [herror]
    exact he
  · rw [hok, coerceItems, hitem]
    exact he

/-- What stops a coercion of items is the first of them that has no value. -/
theorem exists_of_endless_coerceItems {index : Nat} {items : List Value}
    (h : Endless (coerceItems coerce index items)) :
    ∃ before item after vs, items = before ++ item :: after ∧
      coerceItems coerce index before = .ok vs ∧ Endless (coerce item) := by
  induction items generalizing index with
  | nil => exact h.elim
  | cons item items ih =>
    rw [coerceItems] at h
    split at h
    · next v hv =>
      obtain ⟨before, next, after, vs, rfl, hbefore, hnext⟩ := ih (endless_map.1 h)
      refine ⟨item :: before, next, after, v :: vs, rfl, ?_, hnext⟩
      simp [coerceItems, hv, hbefore, Except.map]
    · next e he => exact ⟨[], item, items, [], rfl, rfl, he ▸ h⟩

theorem refines_coerceItems (h : ∀ value, Refines (coerce value) (coerce' value)) (index : Nat)
    (items : List Value) :
    Refines (coerceItems coerce index items) (coerceItems coerce' index items) := by
  induction items generalizing index with
  | nil => exact .refl _
  | cons item items ih =>
    rw [coerceItems, coerceItems]
    rcases h item with hend | heq
    · obtain ⟨e, herror, he⟩ := endless_iff.1 hend
      rw [herror]
      exact .inl he
    · rw [heq]
      cases coerce' item with
      | ok v => exact (ih (index + 1)).map _
      | error e => exact .refl _

theorem not_endless_coerceInputScalar (type : TypeRef) (value : Value) :
    ¬ Endless (type.coerceInputScalar value) := by
  unfold coerceInputScalar
  split
  case h_2 => split <;> nofun
  case h_3 => split <;> nofun
  all_goals nofun

theorem refines_coerceInputWith {named named' : String → Value → Except InvalidValue Value}
    (h : ∀ name value, Refines (named name value) (named' name value)) (type : TypeRef)
    (value : Value) :
    Refines (coerceInputWith named type value) (coerceInputWith named' type value) := by
  induction type generalizing value with
  | nonNull inner ih =>
    cases value with
    | null => exact .refl _
    | _ => simpa [coerceInputWith] using ih _
  | list inner ih =>
    cases value with
    | null => exact .refl _
    | array items =>
      rw [coerceInputWith, coerceInputWith]
      exact (refines_coerceItems ih 0 items).map _
    | _ => simpa [coerceInputWith] using (ih _).map _
  | named name =>
    cases value with
    | null => exact .refl _
    | _ => simpa [coerceInputWith] using h name _
  | string | int | float | id | boolean =>
    cases value <;> exact .inr (by simp [coerceInputWith])

end TypeRef

namespace InputObjectType

variable {coerce coerce' : TypeRef → Value → Except InvalidValue Value} {provided : Entries Value}

theorem coerceFields_append (before after : Entries (InputValue Literal)) :
    coerceFields coerce provided (before ++ after) =
      match coerceFields coerce provided before with
      | .ok members => (coerceFields coerce provided after).map (members ++ ·)
      | .error e => .error e := by
  induction before with
  | nil => cases h : coerceFields coerce provided after <;> simp [coerceFields, Except.map, h]
  | cons e before ih =>
    obtain ⟨name, field⟩ := e
    rw [List.cons_append, coerceFields, coerceFields]
    cases fieldValue? (Entries.get? name provided) field.default with
    | none =>
      cases field.type.isNonNull with
      | true => rfl
      | false => exact ih
    | some value =>
      simp only
      cases coerce field.type value with
      | error e => rfl
      | ok v =>
        simp only [ih]
        cases coerceFields coerce provided before with
        | error e => rfl
        | ok members => cases coerceFields coerce provided after <;> simp [Except.map]

/-- A field stops the coercion of all fields if those before it have values, or need none. -/
theorem endless_coerceFields {before after : Entries (InputValue Literal)}
    {members : Entries Value} {name : String} {field : InputValue Literal} {value : Value}
    (hbefore : Refines (coerceFields coerce provided before) (.ok members))
    (hvalue : fieldValue? (Entries.get? name provided) field.default = some value)
    (hfield : Endless (coerce field.type value)) :
    Endless (coerceFields coerce provided (before ++ (name, field) :: after)) := by
  obtain ⟨e, hfield, he⟩ := endless_iff.1 hfield
  rw [coerceFields_append]
  rcases hbefore with hend | hok
  · obtain ⟨e, herror, he⟩ := endless_iff.1 hend
    rw [herror]
    exact he
  · rw [hok, coerceFields, hvalue]
    simp only [hfield]
    exact he

theorem exists_of_endless_coerceFields {fields : Entries (InputValue Literal)}
    (h : Endless (coerceFields coerce provided fields)) :
    ∃ before name field after value members, fields = before ++ (name, field) :: after ∧
      coerceFields coerce provided before = .ok members ∧
      fieldValue? (Entries.get? name provided) field.default = some value ∧
      Endless (coerce field.type value) := by
  induction fields with
  | nil => exact h.elim
  | cons e fields ih =>
    obtain ⟨name, field⟩ := e
    rw [coerceFields] at h
    split at h
    · next value hvalue =>
      split at h
      · next v hv =>
        obtain ⟨before, next, d, after, value', members, rfl, hbefore, hnext⟩ :=
          ih (endless_map.1 h)
        refine ⟨(name, field) :: before, next, d, after, value', (name, v) :: members, rfl, ?_,
          hnext⟩
        simp [coerceFields, hvalue, hv, hbefore, Except.map]
      · next e he => exact ⟨[], name, field, fields, value, [], rfl, rfl, hvalue, he ▸ h⟩
    · next hnone =>
      split at h
      · cases h
      · next hnull =>
        obtain ⟨before, next, d, after, value, members, rfl, hbefore, hnext⟩ := ih h
        refine ⟨(name, field) :: before, next, d, after, value, members, rfl, ?_, hnext⟩
        simp [coerceFields, hnone, hnull, hbefore]

theorem refines_coerceFields (h : ∀ type value, Refines (coerce type value) (coerce' type value))
    (fields : Entries (InputValue Literal)) :
    Refines (coerceFields coerce provided fields) (coerceFields coerce' provided fields) := by
  induction fields with
  | nil => exact .refl _
  | cons e fields ih =>
    obtain ⟨name, field⟩ := e
    rw [coerceFields, coerceFields]
    cases fieldValue? (Entries.get? name provided) field.default with
    | none =>
      cases field.type.isNonNull with
      | true => exact .refl _
      | false => exact ih
    | some value =>
      rcases h field.type value with hend | heq
      · obtain ⟨e, herror, he⟩ := endless_iff.1 hend
        simp only [herror]
        exact .inl he
      · simp only [heq]
        cases coerce' field.type value with
        | ok v => exact ih.map _
        | error e => exact .refl _

theorem refines_coerce (h : ∀ type value, Refines (coerce type value) (coerce' type value))
    (type : InputObjectType) :
    Refines (type.coerce coerce provided) (type.coerce coerce' provided) := by
  unfold InputObjectType.coerce
  split
  · exact .refl _
  · exact refines_coerceFields h type.fields

end InputObjectType

namespace Schema

variable {schema : Schema}

/-- Coercion to a type in the given room. -/
def coerceWithin (schema : Schema) (room : Nat) : TypeRef → Value → Except InvalidValue Value :=
  TypeRef.coerceInputWith (schema.coerceNamedInput room)

theorem refines_coerceNamedInput (room : Nat) (name : String) (value : Value) :
    Refines (schema.coerceNamedInput room name value)
      (schema.coerceNamedInput (room + 1) name value) := by
  induction room generalizing name value with
  | zero =>
    rw [coerceNamedInput, coerceNamedInput]
    split
    · exact .refl _
    · exact .refl _
    · split
      · exact .inl rfl
      · exact .refl _
    · exact .refl _
  | succ room ih =>
    rw [coerceNamedInput, coerceNamedInput]
    split
    · exact .refl _
    · exact .refl _
    · split
      · exact (InputObjectType.refines_coerce (TypeRef.refines_coerceInputWith ih) _).map _
      · exact .refl _
    · exact .refl _

theorem refines_coerceWithin {room room' : Nat} (h : room ≤ room') (type : TypeRef)
    (value : Value) :
    Refines (schema.coerceWithin room type value) (schema.coerceWithin room' type value) := by
  refine TypeRef.refines_coerceInputWith (fun name value => ?_) type value
  induction h with
  | refl => exact .refl _
  | step _ ih => exact ih.trans (schema.refines_coerceNamedInput _ name value)

/-- Two rooms that are both enough come to the same. -/
theorem coerceWithin_eq {room room' : Nat} {type : TypeRef} {value : Value}
    (h : ¬ Endless (schema.coerceWithin room type value))
    (h' : ¬ Endless (schema.coerceWithin room' type value)) :
    schema.coerceWithin room type value = schema.coerceWithin room' type value :=
  (Refines.of_not_endless (fun _ _ hle => refines_coerceWithin hle type value) h').eq h

theorem refines_coerceItems_of_ok (room : Nat) {room' : Nat} {inner : TypeRef}
    {items vs : List Value}
    (h : TypeRef.coerceItems (schema.coerceWithin room' inner) 0 items = .ok vs) :
    Refines (TypeRef.coerceItems (schema.coerceWithin room inner) 0 items) (.ok vs) := by
  have hmono : ∀ room room', room ≤ room' →
      Refines (TypeRef.coerceItems (schema.coerceWithin room inner) 0 items)
        (TypeRef.coerceItems (schema.coerceWithin room' inner) 0 items) :=
    fun _ _ hle => TypeRef.refines_coerceItems (refines_coerceWithin hle inner) 0 items
  exact h ▸ Refines.of_not_endless hmono (h ▸ endless_ok vs)

theorem refines_coerceFields_of_ok (room : Nat) {room' : Nat} {provided members : Entries Value}
    {fields : Entries (InputValue Literal)}
    (h : InputObjectType.coerceFields (schema.coerceWithin room') provided fields = .ok members) :
    Refines (InputObjectType.coerceFields (schema.coerceWithin room) provided fields)
      (.ok members) := by
  have hmono : ∀ room room', room ≤ room' →
      Refines (InputObjectType.coerceFields (schema.coerceWithin room) provided fields)
        (InputObjectType.coerceFields (schema.coerceWithin room') provided fields) :=
    fun _ _ hle => InputObjectType.refines_coerceFields (refines_coerceWithin hle) fields
  exact h ▸ Refines.of_not_endless hmono (h ▸ endless_ok members)

section

variable {room : Nat} {inner : TypeRef} {value : Value}

theorem coerceWithin_nonNull (hv : value.isNull = false) :
    schema.coerceWithin room (.nonNull inner) value = schema.coerceWithin room inner value := by
  cases value with
  | null => cases hv
  | _ => simp [coerceWithin, TypeRef.coerceInputWith]

theorem coerceWithin_array (items : List Value) :
    schema.coerceWithin room (.list inner) (.array items) =
      (TypeRef.coerceItems (schema.coerceWithin room inner) 0 items).map .array := by
  simp [coerceWithin, TypeRef.coerceInputWith]

theorem coerceWithin_single (hv : value.isNull = false) (hone : ∀ items, value ≠ .array items) :
    schema.coerceWithin room (.list inner) value =
      (schema.coerceWithin room inner value).map fun v => .array [v] := by
  cases value with
  | null => cases hv
  | array items => exact absurd rfl (hone items)
  | _ => simp [coerceWithin, TypeRef.coerceInputWith]

variable {name : String} {type : InputObjectType} {provided : Entries Value}

theorem endless_coerceWithin_zero (htype : schema.type? name = some (.input type)) :
    Endless (schema.coerceWithin 0 (.named name) (.object provided)) := by
  simp [coerceWithin, TypeRef.coerceInputWith, coerceNamedInput, htype, Endless,
    InvalidValue.isEndless]

theorem coerceWithin_succ (htype : schema.type? name = some (.input type)) :
    schema.coerceWithin (room + 1) (.named name) (.object provided) =
      (type.coerce (schema.coerceWithin room) provided).map .object := by
  simp [coerceWithin, TypeRef.coerceInputWith, coerceNamedInput, htype]

end

theorem not_endless_of_isBuiltin {room : Nat} {type : TypeRef} (h : type.isBuiltin = true)
    (value : Value) : ¬ Endless (schema.coerceWithin room type value) := by
  cases type with
  | named | list | nonNull => cases h
  | _ => cases value <;>
      simp [coerceWithin, TypeRef.coerceInputWith, TypeRef.not_endless_coerceInputScalar]

/-- Only input objects take up room. -/
theorem exists_object_of_endless {room : Nat} {name : String} {value : Value}
    (h : Endless (schema.coerceWithin room (.named name) value)) :
    ∃ type provided, schema.type? name = some (.input type) ∧ value = .object provided := by
  have hnamed : Endless (schema.coerceNamedInput room name value) := by
    cases value with
    | null => exact h.elim
    | _ => simpa [coerceWithin, TypeRef.coerceInputWith] using h
  rw [coerceNamedInput] at hnamed
  split at hnamed
  · exact hnamed.elim
  · split at hnamed
    · split at hnamed <;> cases hnamed
    · cases hnamed
  · next type htype =>
    split at hnamed
    · exact ⟨type, _, htype, rfl⟩
    · cases hnamed
  · cases hnamed

/-- In an input object it is a field that has too little room, if the object itself has enough. -/
theorem exists_field_of_endless {room : Nat} {name : String} {type : InputObjectType}
    {provided : Entries Value} (htype : schema.type? name = some (.input type))
    (h : Endless (schema.coerceWithin (room + 1) (.named name) (.object provided))) :
    (Entries.keys provided).find? (!Entries.contains · type.fields) = none ∧
      ∃ before key field after value members, type.fields = before ++ (key, field) :: after ∧
        InputObjectType.coerceFields (schema.coerceWithin room) provided before = .ok members ∧
        InputObjectType.fieldValue? (Entries.get? key provided) field.default = some value ∧
        Endless (schema.coerceWithin room field.type value) := by
  rw [coerceWithin_succ htype, endless_map, InputObjectType.coerce] at h
  split at h
  · cases h
  · next hknown => exact ⟨hknown, InputObjectType.exists_of_endless_coerceFields h⟩

end Schema

end GraphQL
