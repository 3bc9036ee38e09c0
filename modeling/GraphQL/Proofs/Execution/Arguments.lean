import GraphQL.Proofs.Coercion.Canonical
import GraphQL.Proofs.Coercion.Ending
import GraphQL.Proofs.Execution.Limits
import GraphQL.Resolver.Stock
import Mathlib.Data.List.Permutation

/-!
What resolvers are told of the arguments of fields.

A resolver is invoked with canonical values of declared arguments only, and if the arguments of a
field have a fault, an error is all that comes of it, provided that their coercion ends
(`Execution.Setting.arguments_checked`). It need not (`Execution.Setting.arguments_endless`).
-/

set_option autoImplicit false

namespace GraphQL

open Json

/-- A field with an argument that must be given and one that has a default. -/
def FieldDefinition.echo : FieldDefinition where
  name := "f"
  type := .int
  arguments := [("x", ⟨"x", .nonNull .int, none⟩), ("y", ⟨"y", .list .int, some (.int 3)⟩)]
  resolver := some (.constant (.int 1))

def ObjectType.echo : ObjectType := ⟨"Query", [], [("f", .echo)]⟩

namespace Execution

/-- The invocation is that of a field of a type of a kind, with arguments in the order in which they
are declared. They have canonical values, and none with a default or of a non-null type is
missing. -/
def WellArgued (schema : Schema) (T : ObjectType → Prop) (i : Invocation) : Prop :=
  ∃ type d, T type ∧ type.name = i.parentType ∧ Entries.get? i.field type.fields = some d ∧
    (Entries.keys i.arguments).Sublist (Entries.keys d.arguments) ∧
    (∀ name v, (name, v) ∈ i.arguments →
      ∃ argument, (name, argument) ∈ d.arguments ∧ schema.Canonical argument.type v) ∧
    ∀ name argument, (name, argument) ∈ d.arguments →
      argument.default.isSome = true ∨ argument.type.isNonNull = true →
      name ∈ Entries.keys i.arguments

namespace Setting

variable {s : Setting}

/-- Invocations are well argued wherever they happen. -/
theorem limit_wellArgued (s : Setting) (w : World) {T : ObjectType → Prop}
    (hT : ∀ {name type}, s.schema.type? name = some (.object type) → T type) :
    s.Limit w T (fun _ _ => True) fun ev => ∀ i, ev = .invoked i → WellArgued s.schema T i where
  type := hT
  key _ _ := trivial
  index _ _ := trivial
  reached _ _ := nofun
  produced _ _ := nofun
  collecting _ _ _ _ := nofun
  failed _ _ _ := nofun
  invoked parent _ ht hname hd ha _ := by
    rintro i ⟨⟩
    have hall := FieldDefinition.canonicalAll_of_coerceArguments ha
    exact ⟨_, _, ht, hname.symm, hd, hall.keys_sublist, fun _ _ => hall.exists_of_mem,
      fun _ _ => hall.mem_keys⟩

/-- With arguments that are refused a field records one error and ends. -/
theorem ends_field_iff {type : ObjectType} {f : Field Literal} {d : FieldDefinition}
    {e : ArgumentError} (hname : f.head.name ≠ "__typename")
    (hd : Entries.get? f.head.name type.fields = some d)
    (he : d.coerceArguments s.schema s.bindings f.head.arguments = .error e) {object : ObjectTask}
    {parent : Value} {rest : List (Field Literal)} {path : Path} {w : World} {c : Completion}
    {es : List Event} :
    Ends w (s.field object type parent (f :: rest) path) c es ↔
      c = d.type.givenUp ∧ es = [.reached path (some d.type), .failed
        ((FieldSite.ofFields type f rest).codedError e.message "INVALID_ARGUMENT" path)
        e.isEndless] := by
  simp only [field, hname, if_false, hd, resolveField, he]
  constructor
  · intro h
    obtain ⟨_, rfl, hfailed⟩ := h.of_emit
    obtain ⟨_, rfl, hdone⟩ := hfailed.of_emit
    obtain ⟨rfl, rfl⟩ := hdone.of_done
    exact ⟨rfl, rfl⟩
  · rintro ⟨rfl, rfl⟩
    exact .emit _ (.emit _ (.done _))

/-- Resolvers are told canonical values of declared arguments only, under any schedule and any
strategies, and whatever values the variables have. If an argument is not declared, has no value
where it must have one, or has a value that does not coerce, then an error at the path of the field
is all that it does, if the coercion of the arguments ends. If it has no end, no resolver is
called either, and the process is lost. -/
theorem arguments_checked (s : Setting) {runs : List Run} {number : Nat} {strategy : Strategy}
    {root : ObjectType} {value : Value} {selections : List (Selection Literal)} {debug : Bool}
    {context : ContextRef} {permits : Nat}
    (hr : runs[number]? =
      some (.start (s.root strategy root value selections) debug context permits))
    {contexts : ContextStore} {st : State} (hst : State.Reaches (.start runs contexts) st) :
    (∀ i, .invoked i ∈ st.events number →
      WellArgued s.schema
        (fun type => type = root ∨ ∃ name, s.schema.type? name = some (.object type)) i) ∧
    ∀ (object : ObjectTask) (type : ObjectType) (parent : Value) (f : Field Literal)
      (rest : List (Field Literal)) (path : Path) (d : FieldDefinition),
      f.head.name ≠ "__typename" → Entries.get? f.head.name type.fields = some d →
      (d.Fault s.schema s.bindings f.head.arguments →
        d.CoercionEnds s.schema s.bindings f.head.arguments →
        ∃ e, e.path = some path ∧ e.code? = some "INVALID_ARGUMENT" ∧ ∀ w c es,
          Ends w (s.field object type parent (f :: rest) path) c es ↔
            c = d.type.givenUp ∧ es = [.reached path (some d.type), .failed e]) ∧
      (¬ d.CoercionEnds s.schema s.bindings f.head.arguments → ∃ e, ∀ w c es,
        Ends w (s.field object type parent (f :: rest) path) c es ↔
          c = d.type.givenUp ∧ es = [.reached path (some d.type), .failed e true]) := by
  refine ⟨fun i hi => ?_, fun object type parent f rest path d hname hd => ⟨fun hf hends => ?_,
    fun hendless => ?_⟩⟩
  · have hlimit := s.limit_wellArgued (State.world (.start runs contexts) st number)
      (T := fun type => type = root ∨ ∃ name, s.schema.type? name = some (.object type))
      fun {name _} ht => .inr ⟨name, ht⟩
    have hsafe : Task.Safe (State.world (.start runs contexts) st number) _
      (s.root strategy root value selections) := hlimit.safe_selectionSet (.inl rfl) trivial
    exact State.forall_events_of_reaches hst (.world _ _ number) hr hsafe nofun _ hi i rfl
  · obtain ⟨e, he⟩ := FieldDefinition.exists_coerceArguments_eq_error_iff.2 hf
    have hend : e.isEndless = false := FieldDefinition.coercionEnds_iff.1 hends e he
    refine ⟨(FieldSite.ofFields type f rest).codedError e.message "INVALID_ARGUMENT" path, rfl, rfl,
      fun w c es => ?_⟩
    rw [ends_field_iff hname hd he, hend]
  · obtain ⟨e, he, hend⟩ := FieldDefinition.not_coercionEnds_iff.1 hendless
    refine ⟨(FieldSite.ofFields type f rest).codedError e.message "INVALID_ARGUMENT" path,
      fun w c es => ?_⟩
    rw [ends_field_iff hname hd he, hend]

/-- A schema of one object type and a variable. -/
def echo : Setting where
  schema := ⟨[("Query", .object .echo)], ⟨some "Query", none, none⟩, []⟩
  document := ⟨[], []⟩
  bindings := [("v", .int 2)]
  directives := .standard
  recursionLimit := 8
  nested := .serial

theorem arguments_checked_echo :
    let given : Field Literal := ⟨⟨none, "f", [⟨"x", .variable "v"⟩], [], none⟩, []⟩
    let bare : Field Literal := ⟨⟨none, "f", [], [], none⟩, []⟩
    let first := State.start [.start (echo.root .serial .echo .null
      [.field given.head given.selections]) false ⟨0, none⟩ 1] ⟨[[]], 0⟩
    let i : Invocation :=
      ⟨.null, [("x", .int 2), ("y", .array [.int 3])], [.key "f"], "f", "Query"⟩
    .invoked i ∈ (first.run .first ()).events 0 ∧
      WellArgued echo.schema
        (fun type => type = .echo ∨ ∃ name, echo.schema.type? name = some (.object type)) i ∧
      ∃ e, e.path = some [.key "f"] ∧ e.code? = some "INVALID_ARGUMENT" ∧ ∀ w c es,
        Ends w (echo.field (echo.selectionSet 8 .serial) .echo .null [bare] [.key "f"]) c es ↔
          c = .value .null ∧ es = [.reached [.key "f"] (some .int), .failed e] := by
  intro given bare first i
  have hevents : (first.run .first ()).events 0 =
      [.reached [.key "f"] (some .int), .invoked i, .produced [.key "f"] (.int 1)] := by cbv
  have hi : .invoked i ∈ (first.run .first ()).events 0 := by simp [hevents]
  have hfault : FieldDefinition.echo.Fault echo.schema echo.bindings [] :=
    .declared List.mem_cons_self (.missing rfl rfl)
  have hrun : first.runs[0]? = some (.start (echo.root .serial .echo .null
    [.field given.head given.selections]) false ⟨0, none⟩ 1) := rfl
  have hchecked := arguments_checked echo hrun (State.reaches_run .first () first)
  have hends : FieldDefinition.echo.CoercionEnds echo.schema echo.bindings [] :=
    FieldDefinition.coercionEnds_of_wellFounded (by decide +kernel)
  have hbare := hchecked.2 (echo.selectionSet 8 .serial) .echo .null bare [] [.key "f"] _
    (by decide) rfl
  exact ⟨hi, hchecked.1 i hi, hbare.1 hfault hends⟩

/-- The schema of a field with an argument whose default needs itself. -/
def circular : Setting where
  schema := .circularQuery
  document := ⟨[], []⟩
  bindings := []
  directives := .standard
  recursionLimit := 8
  nested := .serial

/-- A text may declare such a field. Where the other argument has no value, although it must have
one, no error comes of that, since the first one is come to before and its coercion has no end. -/
theorem arguments_endless :
    let given : Field Literal := ⟨⟨none, "f", [⟨"x", .object []⟩], [], none⟩, []⟩
    Schema.parse "input A{a:A={}} type Query{f(x:A,y:Int!):Int}" = .ok circular.schema ∧
      FieldDefinition.circular.Fault circular.schema circular.bindings given.head.arguments ∧
      ¬ FieldDefinition.circular.CoercionEnds circular.schema circular.bindings
        given.head.arguments ∧
      (∀ room, Endless (circular.schema.coerceWithin room (.named "A") (.object []))) ∧
      ¬ ∃ e, ∀ w c es,
        Ends w (circular.field (circular.selectionSet 8 .serial) .circular .null [given]
          [.key "f"]) c es ↔
            c = .value .null ∧ es = [.reached [.key "f"] (some .int), .failed e] := by
  intro given
  have hacc : ¬ Acc circular.schema.Needed (.named "A", .object []) := Schema.not_acc_circular rfl
  have hends : ¬ FieldDefinition.circular.CoercionEnds circular.schema circular.bindings
      given.head.arguments := FieldDefinition.not_coercionEnds_circular []
  refine ⟨Schema.parse_circularQuery,
    .declared (List.mem_cons_of_mem _ List.mem_cons_self) (.missing rfl rfl), hends,
    fun room => not_not.1 fun h => hacc (Schema.acc_of_not_endless h), fun ⟨e, he⟩ => ?_⟩
  obtain ⟨reason, hreason, hendless⟩ := FieldDefinition.not_coercionEnds_iff.1 hends
  have hname : given.head.name ≠ "__typename" := by decide
  have hfield : Ends .any (circular.field (circular.selectionSet 8 .serial) .circular .null [given]
      [.key "f"]) _ _ := (ends_field_iff hname rfl hreason).2 ⟨rfl, rfl⟩
  have hsame := ((he _ _ _).1 hfield).2
  simp [hendless] at hsame

end Setting

end Execution

end GraphQL
