import GraphQL.Proofs.Coercion.Room
import GraphQL.Proofs.Json.Trees
import GraphQL.Schema.Build
import Mathlib

/-!
Defaults that need themselves, for whose sake coercion has no end.

Coercion of a value needs that of its parts and of the defaults of the fields that are not given
(`Schema.Needed`). It ends just if no default that is needed needs itself, and then in a room that
is known from the schema (`Schema.coercion_ends_iff`). A text may declare a default that does
(`Schema.coercion_endless`).
-/

set_option autoImplicit false

namespace GraphQL

open Json Relation

section Sums

variable {α : Type} {weight : α → Nat} {p q : α → Bool}

theorem sum_filter_le (hpq : ∀ a, p a = true → q a = true) (l : List α) :
    ((l.filter p).map weight).sum ≤ ((l.filter q).map weight).sum :=
  ((List.monotone_filter_right l hpq).map weight).sum_le_sum fun _ _ => Nat.zero_le _

/-- An element that only the weaker of two conditions admits makes a difference of its weight. -/
theorem sum_filter_add_le (hpq : ∀ a, p a = true → q a = true) {l : List α} {a : α} (ha : a ∈ l)
    (hp : p a = false) (hq : q a = true) :
    ((l.filter p).map weight).sum + weight a ≤ ((l.filter q).map weight).sum := by
  induction l with
  | nil => cases ha
  | cons b l ih =>
    rcases List.mem_cons.1 ha with rfl | ha
    · have hrest : ((l.filter p).map weight).sum ≤ ((l.filter q).map weight).sum :=
        sum_filter_le hpq l
      simp [hp, hq]
      omega
    · have hrest := ih ha
      cases hpb : p b with
      | true =>
        simp [hpb, hpq b hpb]
        omega
      | false => cases hqb : q b <;> simp [hpb, hqb] <;> omega

end Sums

namespace InputObjectType

theorem fieldValue?_eq_some {given : Option Value} {default : Option Literal} {value : Value}
    (h : fieldValue? given default = some value) :
    given = some value ∨ ∃ literal, default = some literal ∧ literal.evaluateConst = value := by
  rcases Option.or_eq_some_iff.1 h with h | ⟨-, h⟩
  · exact .inl h
  · exact .inr (Option.map_eq_some_iff.1 h)

end InputObjectType

/-- The defaults of fields with the types of these. -/
def InputValue.defaults (fields : Entries (InputValue Literal)) : List (TypeRef × Value) :=
  fields.filterMap fun (_, field) =>
    field.default.map fun literal => (field.type, literal.evaluateConst)

def TypeDefinition.inputFields : TypeDefinition → Entries (InputValue Literal)
  | .input type => type.fields
  | _ => []

theorem InputValue.defaultsDepth_eq (fields : Entries (InputValue Literal)) :
    defaultsDepth fields = ((defaults fields).map (·.2.depth + 1)).sum := by
  induction fields with
  | nil => rfl
  | cons e fields ih =>
    obtain ⟨name, field⟩ := e
    rw [defaultsDepth, ih, defaults, defaults]
    cases hdefault : field.default <;> simp [hdefault]

namespace Schema

variable {schema : Schema}

/-- The defaults of all fields of input object types. -/
def inputDefaults (schema : Schema) : List (TypeRef × Value) :=
  schema.types.flatMap fun (_, type) => InputValue.defaults type.inputFields

theorem defaultDepth_eq (schema : Schema) :
    schema.defaultDepth = (schema.inputDefaults.map (·.2.depth + 1)).sum := by
  have htypes (types : Entries TypeDefinition) : TypeDefinition.defaultsDepth types =
      ((types.flatMap fun e => InputValue.defaults e.2.inputFields).map (·.2.depth + 1)).sum := by
    induction types with
    | nil => rfl
    | cons e types ih =>
      obtain ⟨name, type⟩ := e
      rw [List.flatMap_cons, List.map_append, List.sum_append, ← ih]
      cases type with
      | input type =>
        rw [TypeDefinition.defaultsDepth, InputValue.defaultsDepth_eq]
        rfl
      | _ => simp [TypeDefinition.defaultsDepth, TypeDefinition.inputFields, InputValue.defaults]
  exact htypes schema.types

theorem mem_inputDefaults {name key : String} {type : InputObjectType} {literal : Literal}
    {field : InputValue Literal} (htype : schema.type? name = some (.input type))
    (hfield : (key, field) ∈ type.fields) (hdefault : field.default = some literal) :
    (field.type, literal.evaluateConst) ∈ schema.inputDefaults :=
  List.mem_flatMap.2 ⟨_, Entries.mem_of_get? htype,
    List.mem_filterMap.2 ⟨(key, field), hfield, by simp [hdefault]⟩⟩

/-- Coercion of the second value to its type asks for that of the first one to its own. Items and
fields come in turn: each is asked for once those before it have values. -/
inductive Needed (schema : Schema) : TypeRef × Value → TypeRef × Value → Prop where
  | nonNull {inner : TypeRef} {value : Value} : value.isNull = false →
      Needed schema (inner, value) (.nonNull inner, value)
  | single {inner : TypeRef} {value : Value} : value.isNull = false →
      (∀ items, value ≠ .array items) → Needed schema (inner, value) (.list inner, value)
  | item {inner : TypeRef} {before after vs : List Value} {item : Value} {room : Nat} :
      TypeRef.coerceItems (schema.coerceWithin room inner) 0 before = .ok vs →
      Needed schema (inner, item) (.list inner, .array (before ++ item :: after))
  | field {name key : String} {type : InputObjectType} {provided members : Entries Value}
      {before after : Entries (InputValue Literal)} {field : InputValue Literal} {value : Value}
      {room : Nat} : schema.type? name = some (.input type) →
      (Entries.keys provided).find? (!Entries.contains · type.fields) = none →
      type.fields = before ++ (key, field) :: after →
      InputObjectType.coerceFields (schema.coerceWithin room) provided before = .ok members →
      InputObjectType.fieldValue? (Entries.get? key provided) field.default = some value →
      Needed schema (field.type, value) (.named name, .object provided)

/-- None of the defaults that a coercion needs needs itself. -/
def Grounded (schema : Schema) (c : TypeRef × Value) : Prop :=
  ∀ d ∈ schema.inputDefaults, ReflTransGen schema.Needed d c → ¬ TransGen schema.Needed d d

/-- A coercion that came to an answer, in whichever room, needed nothing without end. -/
theorem acc_of_not_endless {room : Nat} {type : TypeRef} {value : Value}
    (h : ¬ Endless (schema.coerceWithin room type value)) : Acc schema.Needed (type, value) := by
  induction room using Nat.strongRecOn generalizing type value with
  | ind room ihroom =>
    induction type generalizing value with
    | nonNull inner ih =>
      refine .intro _ fun c hc => ?_
      cases hc with
      | nonNull hv => exact ih (coerceWithin_nonNull hv ▸ h)
    | list inner ih =>
      refine .intro _ fun c hc => ?_
      cases hc with
      | single hv hone =>
        rw [coerceWithin_single hv hone, endless_map] at h
        exact ih h
      | item hbefore =>
        rw [coerceWithin_array, endless_map] at h
        have hrefines := refines_coerceItems_of_ok room hbefore
        exact ih fun hitem => h (TypeRef.endless_coerceItems hrefines hitem)
    | named name =>
      refine .intro _ fun c hc => ?_
      cases hc with
      | field htype hknown hfields hbefore hvalue =>
        cases room with
        | zero => exact absurd (endless_coerceWithin_zero htype) h
        | succ room =>
          rw [coerceWithin_succ htype, endless_map, InputObjectType.coerce, hknown, hfields] at h
          have hrefines := refines_coerceFields_of_ok room hbefore
          exact ihroom room (Nat.lt_succ_self _) fun hfield =>
            h (InputObjectType.endless_coerceFields hrefines hvalue hfield)
    | string | int | float | id | boolean =>
      refine .intro _ fun c hc => ?_
      cases hc

theorem not_needed_self_of_acc {c : TypeRef × Value} (h : Acc schema.Needed c) :
    ¬ TransGen schema.Needed c c := by
  have htrans := h.transGen
  clear h
  induction htrans with
  | intro c _ ih => exact fun hc => ih c hc hc

theorem grounded_of_acc {c : TypeRef × Value} (h : Acc schema.Needed c) : schema.Grounded c := by
  intro d _ hd
  rcases reflTransGen_iff_eq_or_transGen.1 hd with rfl | hd
  · exact not_needed_self_of_acc h
  · exact not_needed_self_of_acc (acc_transGen_iff.1 (h.transGen.inv hd))

theorem Grounded.of_needed {c c' : TypeRef × Value} (h : schema.Grounded c)
    (hc : schema.Needed c' c) : schema.Grounded c' :=
  fun d hd hreach => h d hd (hreach.tail hc)

/-! The room that a coercion takes: the depth of the value, and that of the defaults it needs. -/

open Classical in
/-- How deep the defaults that a coercion needs are nested, at most. -/
noncomputable def depthNeeded (schema : Schema) (c : TypeRef × Value) : Nat :=
  ((schema.inputDefaults.filter fun d => TransGen schema.Needed d c).map (·.2.depth + 1)).sum

theorem depthNeeded_mono {c c' : TypeRef × Value} (h : schema.Needed c' c) :
    schema.depthNeeded c' ≤ schema.depthNeeded c := by
  refine sum_filter_le (fun d hd => ?_) schema.inputDefaults
  simp only [decide_eq_true_eq] at hd ⊢
  exact hd.tail h

/-- A default that is needed, and does not need itself, is not among those that it needs. -/
theorem depthNeeded_default {c d : TypeRef × Value} (h : schema.Needed d c)
    (hd : d ∈ schema.inputDefaults) (hgrounded : schema.Grounded c) :
    d.2.depth + schema.depthNeeded d < schema.depthNeeded c := by
  have hself : ¬ TransGen schema.Needed d d := hgrounded d hd (.single h)
  have hadd : schema.depthNeeded d + (d.2.depth + 1) ≤ schema.depthNeeded c := by
    refine sum_filter_add_le (fun d' hd' => ?_) hd (by simpa using hself)
      (by simpa using TransGen.single h)
    simp only [decide_eq_true_eq] at hd' ⊢
    exact hd'.tail h
  omega

theorem depthNeeded_le (schema : Schema) (c : TypeRef × Value) :
    schema.depthNeeded c ≤ schema.defaultDepth := by
  rw [defaultDepth_eq]
  exact (List.filter_sublist.map _).sum_le_sum fun _ _ => Nat.zero_le _

/-- A field of an input object takes less room than the object. -/
theorem room_lt_of_field {name key : String} {type : InputObjectType}
    {provided : Entries Value} {field : InputValue Literal} {value : Value}
    (hgrounded : schema.Grounded (.named name, .object provided))
    (hneeded : schema.Needed (field.type, value) (.named name, .object provided))
    (htype : schema.type? name = some (.input type)) (hfield : (key, field) ∈ type.fields)
    (hvalue : InputObjectType.fieldValue? (Entries.get? key provided) field.default = some value) :
    value.depth + schema.depthNeeded (field.type, value) <
      (Value.object provided).depth + schema.depthNeeded (.named name, .object provided) := by
  rcases InputObjectType.fieldValue?_eq_some hvalue with hgiven | ⟨literal, hdefault, rfl⟩
  · have hdepth : value.depth ≤ Value.depthMembers provided :=
      Value.depth_le_depthMembers (Entries.mem_of_get? hgiven)
    have hmono := depthNeeded_mono hneeded
    rw [Value.depth]
    omega
  · have hless : literal.evaluateConst.depth + schema.depthNeeded _ < _ :=
      depthNeeded_default hneeded (mem_inputDefaults htype hfield hdefault) hgrounded
    omega

theorem not_endless_of_grounded {room : Nat} {type : TypeRef} {value : Value}
    (hgrounded : schema.Grounded (type, value))
    (hroom : value.depth + schema.depthNeeded (type, value) ≤ room) :
    ¬ Endless (schema.coerceWithin room type value) := by
  induction room using Nat.strongRecOn generalizing type value with
  | ind room ihroom =>
    induction type generalizing value with
    | nonNull inner ih =>
      have hrest (hv : value.isNull = false) :
          ¬ Endless (schema.coerceWithin room (.nonNull inner) value) := by
        have hneeded : schema.Needed (inner, value) (.nonNull inner, value) := .nonNull hv
        have hmono := depthNeeded_mono hneeded
        rw [coerceWithin_nonNull hv]
        exact ih (hgrounded.of_needed hneeded) (by omega)
      cases value with
      | null => nofun
      | _ => exact hrest rfl
    | list inner ih =>
      have hone (hv : value.isNull = false) (hone : ∀ items, value ≠ .array items) :
          ¬ Endless (schema.coerceWithin room (.list inner) value) := by
        have hneeded : schema.Needed (inner, value) (.list inner, value) := .single hv hone
        have hmono := depthNeeded_mono hneeded
        rw [coerceWithin_single hv hone, endless_map]
        exact ih (hgrounded.of_needed hneeded) (by omega)
      cases value with
      | null => nofun
      | array items =>
        intro h
        rw [coerceWithin_array, endless_map] at h
        obtain ⟨before, item, after, vs, rfl, hbefore, hitem⟩ :=
          TypeRef.exists_of_endless_coerceItems h
        have hneeded :
            schema.Needed (inner, item) (.list inner, .array (before ++ item :: after)) :=
          .item hbefore
        have hmono := depthNeeded_mono hneeded
        have hdepth : item.depth ≤ Value.depthItems (before ++ item :: after) :=
          Value.depth_le_depthItems (List.mem_append_right before List.mem_cons_self)
        rw [Value.depth] at hroom
        exact ih (hgrounded.of_needed hneeded) (by omega) hitem
      | _ => exact hone rfl nofun
    | named name =>
      intro h
      obtain ⟨type, provided, htype, rfl⟩ := exists_object_of_endless h
      cases room with
      | zero =>
        rw [Value.depth] at hroom
        omega
      | succ room =>
        obtain ⟨hknown, before, key, field, after, value, members, hfields, hbefore, hvalue,
          hfield⟩ := exists_field_of_endless htype h
        have hneeded : schema.Needed (field.type, value) (.named name, .object provided) :=
          .field htype hknown hfields hbefore hvalue
        have hmem : (key, field) ∈ type.fields := by
          rw [hfields]
          exact List.mem_append_right before List.mem_cons_self
        have hless := room_lt_of_field hgrounded hneeded htype hmem hvalue
        exact ihroom room (Nat.lt_succ_self _) (hgrounded.of_needed hneeded) (by omega) hfield
    | string | int | float | id | boolean => exact not_endless_of_isBuiltin rfl value

/-- The room that coercion is given is enough for all that ends, whatever else the schema holds. -/
theorem acc_iff_not_endless {type : TypeRef} {value : Value} :
    Acc schema.Needed (type, value) ↔ ¬ Endless (type.coerceInput schema value) := by
  refine ⟨fun h => ?_, acc_of_not_endless⟩
  have hroom := schema.depthNeeded_le (type, value)
  exact not_endless_of_grounded (grounded_of_acc h) (by omega)

theorem acc_iff_grounded {c : TypeRef × Value} : Acc schema.Needed c ↔ schema.Grounded c :=
  ⟨grounded_of_acc, fun h => acc_of_not_endless (not_endless_of_grounded h (Nat.le_refl _))⟩

/-- What coercion comes to in some room it comes to in the room that it is given. -/
theorem refines_coerceInput (schema : Schema) (room : Nat) (type : TypeRef) (value : Value) :
    Refines (schema.coerceWithin room type value) (type.coerceInput schema value) := by
  by_cases h : Endless (schema.coerceWithin room type value)
  · exact .inl h
  · exact .inr (coerceWithin_eq h (acc_iff_not_endless.1 (acc_of_not_endless h)))

/-- Where coercion ends, it does as if there were no bound to the room. -/
theorem coerceInput_object {name : String} {type : InputObjectType} {provided : Entries Value}
    (htype : schema.type? name = some (.input type))
    (h : Acc schema.Needed (.named name, .object provided)) :
    (TypeRef.named name).coerceInput schema (.object provided) =
      (type.coerce (·.coerceInput schema) provided).map .object := by
  have hends := acc_iff_not_endless.1 h
  have hobject : (TypeRef.named name).coerceInput schema (.object provided) =
      (type.coerce (schema.coerceWithin _) provided).map .object := coerceWithin_succ htype
  rw [hobject] at hends ⊢
  exact ((InputObjectType.refines_coerce (schema.refines_coerceInput _) type).map _).eq hends

theorem wellFounded_needed_iff : WellFounded schema.Needed ↔
    ∀ d ∈ schema.inputDefaults, ¬ Endless (d.1.coerceInput schema d.2) := by
  refine ⟨fun h d _ => acc_iff_not_endless.1 (h.apply d), fun h => ⟨fun c => ?_⟩⟩
  refine acc_iff_grounded.2 fun d hd _ => ?_
  exact not_needed_self_of_acc (acc_iff_not_endless.2 (h d hd))

instance : Decidable (WellFounded schema.Needed) := decidable_of_iff' _ wellFounded_needed_iff

/-- Coercion ends just if none of the defaults that it needs needs itself. Then it comes to what it
does in every room that is enough, and at an input object to what it does without a bound. All
coercions of a schema end if those of its defaults do. -/
theorem coercion_ends_iff (schema : Schema) :
    (∀ type value,
      (Acc schema.Needed (type, value) ↔ schema.Grounded (type, value)) ∧
      (Acc schema.Needed (type, value) ↔ ¬ Endless (type.coerceInput schema value)) ∧
      ∀ room, ¬ Endless (schema.coerceWithin room type value) →
        Acc schema.Needed (type, value) ∧
          schema.coerceWithin room type value = type.coerceInput schema value) ∧
    (∀ name type provided, schema.type? name = some (.input type) →
      Acc schema.Needed (.named name, .object provided) →
      (TypeRef.named name).coerceInput schema (.object provided) =
        (type.coerce (·.coerceInput schema) provided).map .object) ∧
    (WellFounded schema.Needed ↔
      ∀ d ∈ schema.inputDefaults, ¬ Endless (d.1.coerceInput schema d.2)) := by
  refine ⟨fun type value => ⟨acc_iff_grounded, acc_iff_not_endless, fun room h => ?_⟩,
    fun _ _ _ => coerceInput_object, wellFounded_needed_iff⟩
  exact ⟨acc_of_not_endless h, (schema.refines_coerceInput room type value).eq h⟩

/-- A field with a default in want of that of another type. -/
def chained : Schema where
  types := builtin.types ++ [("A", .input ⟨"A", [("b", ⟨"b", .named "B", some (.object [])⟩)]⟩),
    ("B", .input ⟨"B", [("c", ⟨"c", .int, some (.int 1)⟩)]⟩)]
  roots := ⟨none, none, none⟩
  typeResolvers := []

/-- Whether what was read of a text are the declarations of these types. -/
def declaresChained : Except Syntax.SyntaxError (List Syntax.Item) → Bool
  | .ok [.schema ⟨false, .input "A" [⟨"b", .named "B", some (.object [])⟩]⟩,
      .schema ⟨false, .input "B" [⟨"c", .int, some (.int "1")⟩]⟩] => true
  | _ => false

theorem parse_chained : parse "input A{b:B={}} input B{c:Int=1}" = .ok chained := by
  have hread : declaresChained (Syntax.Item.parse "input A{b:B={}} input B{c:Int=1}") = true := by
    decide +kernel
  unfold declaresChained at hread
  split at hread
  · next hitems =>
    rw [parse, hitems]
    rfl
  · cases hread

/-- There coercions need defaults, and all of them end. -/
theorem coercion_ends_chained :
    parse "input A{b:B={}} input B{c:Int=1}" = .ok chained ∧
      (∀ d ∈ chained.inputDefaults, ¬ Endless (d.1.coerceInput chained d.2)) ∧
      WellFounded chained.Needed ∧ chained.Grounded (.named "A", .object []) ∧
      ¬ Endless (chained.coerceWithin 3 (.named "A") (.object [])) ∧
      (TypeRef.named "A").coerceInput chained (.object []) =
        chained.coerceWithin 3 (.named "A") (.object []) ∧
      chained.coerceWithin 3 (.named "A") (.object []) =
        .ok (.object [("b", .object [("c", .int 1)])]) ∧
      ∃ type, chained.type? "A" = some (.input type) ∧
        (TypeRef.named "A").coerceInput chained (.object []) =
          (type.coerce (·.coerceInput chained) []).map .object := by
  obtain ⟨hvalues, hobjects, hschema⟩ := coercion_ends_iff chained
  have hdefaults : ∀ d ∈ chained.inputDefaults, ¬ Endless (d.1.coerceInput chained d.2) := by
    decide +kernel
  have hwf : WellFounded chained.Needed := hschema.2 hdefaults
  obtain ⟨hgrounded, -, hroom⟩ := hvalues (.named "A") (.object [])
  have hends : ¬ Endless (chained.coerceWithin 3 (.named "A") (.object [])) := by decide +kernel
  obtain ⟨hacc, hsame⟩ := hroom 3 hends
  exact ⟨parse_chained, hdefaults, hwf, hgrounded.1 hacc, hends, hsame.symm, by cbv, _, rfl,
    hobjects "A" _ [] rfl hacc⟩

/-- A field with a default in want of that same field. -/
def circularField : InputValue Literal := ⟨"a", .named "A", some (.object [])⟩

def circular : Schema where
  types := builtin.types ++ [("A", .input ⟨"A", [("a", circularField)]⟩)]
  roots := ⟨none, none, none⟩
  typeResolvers := []

/-- Whether what was read of a text is the declaration of that field. -/
def declaresCircular : Except Syntax.SyntaxError (List Syntax.Item) → Bool
  | .ok [.schema ⟨false, .input "A" [⟨"a", .named "A", some (.object [])⟩]⟩] => true
  | _ => false

theorem parse_circular : parse "input A{a:A={}}" = .ok circular := by
  have hread : declaresCircular (Syntax.Item.parse "input A{a:A={}}") = true := by
    decide +kernel
  unfold declaresCircular at hread
  split at hread
  · next hitems =>
    rw [parse, hitems]
    rfl
  · cases hread

/-- Wherever such a field is declared, it needs itself. -/
theorem not_acc_circular (h : schema.type? "A" = some (.input ⟨"A", [("a", circularField)]⟩)) :
    ¬ Acc schema.Needed (.named "A", .object []) := by
  have hself : schema.Needed (circularField.type, .object []) (.named "A", .object []) :=
    @Needed.field _ _ "a" _ _ _ [] [] _ _ 0 h rfl rfl rfl rfl
  exact fun hacc => not_needed_self_of_acc hacc (.single hself)

/-- A text may declare such a field. No room is enough to coerce an object without it. -/
theorem coercion_endless :
    parse "input A{a:A={}}" = .ok circular ∧
      ¬ Acc circular.Needed (.named "A", .object []) ∧
      ∀ room, Endless (circular.coerceWithin room (.named "A") (.object [])) := by
  have hacc : ¬ Acc circular.Needed (.named "A", .object []) := not_acc_circular rfl
  exact ⟨parse_circular, hacc, fun room => not_not.1 fun h => hacc (acc_of_not_endless h)⟩

example : ¬ WellFounded circular.Needed := by decide +kernel

end Schema

end GraphQL
