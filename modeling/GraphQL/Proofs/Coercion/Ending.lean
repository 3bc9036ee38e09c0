import GraphQL.Coercion.Arguments
import GraphQL.Coercion.Variables
import GraphQL.Proofs.Coercion.Defaults

/-!
Which arguments and variables come back from their coercion.

The arguments of a field are coerced one after the other, so the coercion of one of them counts only
if those before it have values (`FieldDefinition.coercionEnds_iff`). A variable counts whatever
becomes of the others.
-/

set_option autoImplicit false

namespace GraphQL

open Json

section

variable {schema : Schema} {bindings : Entries Value} {given : List (Argument Literal)}

theorem coerceDefined_append (before after : Entries (InputValue Literal)) :
    coerceDefined schema bindings given (before ++ after) =
      match coerceDefined schema bindings given before with
      | .ok members => (coerceDefined schema bindings given after).map (members ++ ·)
      | .error e => .error e := by
  induction before with
  | nil => cases h : coerceDefined schema bindings given after <;>
      simp [coerceDefined, Except.map, h]
  | cons entry before ih =>
    obtain ⟨name, d⟩ := entry
    rw [List.cons_append, coerceDefined, coerceDefined]
    cases d.argumentValue? bindings given with
    | none =>
      cases d.type.isNonNull with
      | true => rfl
      | false => exact ih
    | some value =>
      simp only
      cases d.type.coerceInput schema value with
      | error e => rfl
      | ok v =>
        simp only [ih]
        cases coerceDefined schema bindings given before with
        | error e => rfl
        | ok members =>
          cases coerceDefined schema bindings given after <;> simp [Except.map]

/-- Where the coercion of arguments has no end, one of them has none that is come to. -/
theorem exists_of_endless_coerceDefined {declared : Entries (InputValue Literal)}
    {e : ArgumentError} (h : coerceDefined schema bindings given declared = .error e)
    (he : e.isEndless = true) :
    ∃ before name d after members value, declared = before ++ (name, d) :: after ∧
      coerceDefined schema bindings given before = .ok members ∧
      d.argumentValue? bindings given = some value ∧ Endless (d.type.coerceInput schema value) := by
  induction declared with
  | nil => cases h
  | cons entry declared ih =>
    obtain ⟨name, d⟩ := entry
    rw [coerceDefined] at h
    split at h
    · next value hvalue =>
      split at h
      · next v hv =>
        cases hrest : coerceDefined schema bindings given declared with
        | ok rest => simp [hrest, Except.map] at h
        | error e' =>
          obtain rfl : e' = e := by simpa [hrest, Except.map] using h
          obtain ⟨before, next, d', after, members, value', rfl, hbefore, hnext⟩ := ih hrest
          refine ⟨(name, d) :: before, next, d', after, (name, v) :: members, value', rfl, ?_,
            hnext⟩
          simp [coerceDefined, hvalue, hv, hbefore, Except.map]
      · next reason hinvalid =>
        cases h
        exact ⟨[], name, d, declared, [], value, rfl, rfl, hvalue, hinvalid ▸ he⟩
    · next hnone =>
      split at h
      · cases h
        cases he
      · next hnull =>
        obtain ⟨before, next, d', after, members, value, rfl, hbefore, hnext⟩ := ih h
        refine ⟨(name, d) :: before, next, d', after, members, value, rfl, ?_, hnext⟩
        simp [coerceDefined, hnone, hnull, hbefore]

namespace FieldDefinition

variable {d : FieldDefinition}

/-- The arguments that a field is given come back from their coercion: one of them is not defined,
or each that is come to has a value whose coercion ends. -/
def CoercionEnds (schema : Schema) (bindings : Entries Value) (given : List (Argument Literal))
    (d : FieldDefinition) : Prop :=
  (∃ a ∈ given, Entries.contains a.name d.arguments = false) ∨
    ∀ before name argument after members value,
      d.arguments = before ++ (name, argument) :: after →
      coerceDefined schema bindings given before = .ok members →
      argument.argumentValue? bindings given = some value →
      Acc schema.Needed (argument.type, value)

theorem coercionEnds_iff : d.CoercionEnds schema bindings given ↔
    ∀ e, d.coerceArguments schema bindings given = .error e → e.isEndless = false := by
  unfold coerceArguments
  constructor
  · intro h e he
    split at he
    · cases he
      rfl
    · next hnone =>
      by_contra hend
      obtain ⟨before, name, argument, after, members, value, hd, hbefore, hvalue, hendless⟩ :=
        exists_of_endless_coerceDefined he (by simpa using hend)
      rcases h with ⟨a, ha, hc⟩ | h
      · exact absurd hc (by simpa using List.find?_eq_none.1 hnone a ha)
      · have hacc := h before name argument after members value hd hbefore hvalue
        exact Schema.acc_iff_not_endless.1 hacc hendless
  · intro h
    split at h
    · next a ha =>
      exact .inl ⟨a, List.mem_of_find?_eq_some ha, by simpa using List.find?_some ha⟩
    · refine .inr fun before name argument after members value hd hbefore hvalue => ?_
      refine Schema.acc_iff_not_endless.2 fun hendless => ?_
      obtain ⟨reason, hreason, hend⟩ := endless_iff.1 hendless
      have hfalse : reason.isEndless = false := h (.invalid name argument.type.render reason) <| by
        rw [hd, coerceDefined_append, hbefore]
        simp [coerceDefined, hvalue, hreason, Except.map]
      exact absurd hend (by simp [hfalse])

theorem not_coercionEnds_iff : ¬ d.CoercionEnds schema bindings given ↔
    ∃ e, d.coerceArguments schema bindings given = .error e ∧ e.isEndless = true := by
  simp [coercionEnds_iff]

theorem coercionEnds_of_wellFounded (h : WellFounded schema.Needed) :
    d.CoercionEnds schema bindings given :=
  .inr fun _ _ _ _ _ _ _ _ _ => h.apply _

end FieldDefinition

/-- A declared variable comes back from its coercion just if that of its value ends. -/
theorem VariableDefinition.isEndless_eq_false_iff {d : VariableDefinition Literal}
    {provided : Entries Value} : d.isEndless schema provided = false ↔
      ∀ value, d.value? provided = some value → Acc schema.Needed (d.type, value) := by
  unfold isEndless
  cases d.value? provided with
  | none => simp
  | some value => simp [Schema.acc_iff_not_endless]

end

/-- A field with an argument of the type whose default needs itself, and one that must be given. -/
def FieldDefinition.circular : FieldDefinition where
  name := "f"
  type := .int
  arguments := [("x", ⟨"x", .named "A", none⟩), ("y", ⟨"y", .nonNull .int, none⟩)]
  resolver := none

def ObjectType.circular : ObjectType := ⟨"Query", [], [("f", .circular)]⟩

namespace Schema

def circularQuery : Schema where
  types := circular.types ++ [("Query", .object .circular)]
  roots := ⟨some "Query", none, none⟩
  typeResolvers := []

/-- Whether what was read of a text are the declarations of the type and of the field. -/
def declaresCircularQuery : Except Syntax.SyntaxError (List Syntax.Item) → Bool
  | .ok [.schema ⟨false, .input "A" [⟨"a", .named "A", some (.object [])⟩]⟩,
      .schema ⟨false, .object "Query" [] [⟨"f", .int,
        [⟨"x", .named "A", none⟩, ⟨"y", .nonNull .int, none⟩]⟩]⟩] => true
  | _ => false

theorem parse_circularQuery :
    parse "input A{a:A={}} type Query{f(x:A,y:Int!):Int}" = .ok circularQuery := by
  have hread : declaresCircularQuery
      (Syntax.Item.parse "input A{a:A={}} type Query{f(x:A,y:Int!):Int}") = true := by
    decide +kernel
  unfold declaresCircularQuery at hread
  split at hread
  · next hitems =>
    rw [parse, hitems]
    rfl
  · cases hread

end Schema

theorem FieldDefinition.not_coercionEnds_circular (bindings : Entries Value) :
    ¬ FieldDefinition.circular.CoercionEnds .circularQuery bindings [⟨"x", .object []⟩] := by
  rintro (⟨a, ha, hc⟩ | hends)
  · obtain rfl := List.mem_singleton.1 ha
    cases hc
  · have hacc : ¬ Acc Schema.circularQuery.Needed (.named "A", .object []) :=
      Schema.not_acc_circular rfl
    exact hacc (hends [] "x" _ _ [] (.object []) rfl rfl rfl)

end GraphQL
