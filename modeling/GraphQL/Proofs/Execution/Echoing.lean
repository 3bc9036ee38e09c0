import GraphQL.Proofs.Coercion.Canonical
import GraphQL.Proofs.Execution.Completions
import GraphQL.Proofs.Execution.Reporting

/-!
Fields that answer their argument.

What coercion of an input makes of a value, completion of an output leaves as it is: the values that
are canonical for a type of leaves are completed to themselves, without an error
(`Does.echoes`). So a field that answers its argument yields the coerced argument
(`Submission.field_echoes`).
-/

set_option autoImplicit false

namespace GraphQL

open Json Execution

/-- A type of scalars or enums, at any depth of lists and non-null marks. -/
def TypeRef.OverLeaves (schema : Schema) : TypeRef → Prop
  | list inner => inner.OverLeaves schema
  | nonNull inner => inner.OverLeaves schema
  | type => type.IsLeaf schema

/-- A canonical value of a leaf type is serialized as it is. -/
theorem TypeRef.coerceOutput_of_canonical {schema : Schema} {type : TypeRef} {v : Value}
    (hv : schema.Canonical type v) (hnull : v.isNull = false) (hleaf : type.IsLeaf schema) :
    type.coerceOutput schema v = .ok v := by
  cases hv with
  | null => cases hnull
  | nonNull | list => exact hleaf.elim
  | string | float | id | boolean => rfl
  | int hlow hhigh =>
    have hint : ∀ i : Int, -0x80000000 ≤ i → i < 0x80000000 → (Value.int i).int32? = some i :=
      fun i hlow hhigh => by
        simp [Value.int32?, Number.toInt?, Value.int, Option.filter_eq_some_iff, hlow, hhigh]
    simp only [coerceOutput, hint _ hlow hhigh]
  | scalar v hd => simp only [coerceOutput, hd]
  | enum hd hs => simp only [coerceOutput, hd, Value.string?, if_pos hs]
  | input hd =>
    obtain ⟨d, hd', hleaf⟩ := hleaf
    cases hd.symm.trans hd'
    cases hleaf

namespace Execution

/-- The job is to complete a canonical value of a type of leaves; where null is refused it is
none. -/
def Job.Echoes (schema : Schema) (v : Value) : Job → Prop
  | .item _ type u _ => type.OverLeaves schema ∧ schema.Canonical type u ∧ u = v
  | .position _ refusesNull type u _ =>
    type.OverLeaves schema ∧ schema.Canonical type u ∧ u = v ∧
      (refusesNull = true → v.isNull = false)
  | .value _ type u _ => type.OverLeaves schema ∧ schema.Canonical type u ∧ u = v
  | _ => False

theorem Does.echoes {s : Setting} {w : World} {room : Nat} {job : Job} {c : Completion}
    {es : List Event} (h : Does s w room job c es) :
    ∀ {v : Value}, job.Echoes s.schema v → c = .value v ∧ ∀ e ∈ es, e.error? = none := by
  induction h with
  | item _ ih =>
    rintro v ⟨htype, hv, rfl⟩
    obtain ⟨rfl, hes⟩ := ih ⟨htype, hv, rfl, by simp⟩
    exact ⟨rfl, List.forall_mem_cons.2 ⟨rfl, List.forall_mem_cons.2 ⟨rfl, hes⟩⟩⟩
  | marked _ ih =>
    rintro v ⟨htype, hv, rfl, -⟩
    cases hv with
    | null hnull => cases hnull
    | nonNull hnull hv => exact ih ⟨htype, hv, rfl, fun _ => hnull⟩
  | absorbed _ _ ih =>
    rintro v ⟨htype, hv, rfl, -⟩
    obtain ⟨rfl, hes⟩ := ih ⟨htype, hv, rfl⟩
    exact ⟨rfl, hes⟩
  | refused hnull _ ih =>
    rintro v ⟨htype, hv, rfl, hrefuses⟩
    obtain ⟨rfl, hes⟩ := ih ⟨htype, hv, rfl⟩
    cases (hrefuses rfl).symm.trans hnull
  | kept _ _ ih =>
    rintro v ⟨htype, hv, rfl, -⟩
    exact ih ⟨htype, hv, rfl⟩
  | null =>
    rintro v ⟨-, -, rfl⟩
    exact ⟨rfl, nofun⟩
  | unmarked _ _ ih =>
    rintro v ⟨htype, hv, rfl⟩
    cases hv with
    | null hnull => cases hnull
    | nonNull _ hv => exact ih ⟨htype, hv, rfl, by simp⟩
  | @array room site type items path outs merged hlength hitems hmerged ih =>
    rintro v ⟨htype, hv, rfl⟩
    cases hv with
    | list hv =>
      have hitem : ∀ i item d ds, items[i]? = some item → outs[i]? = some (d, ds) →
          d = Completion.value item ∧ ∀ e ∈ ds, Event.error? e = none := fun i item d ds hi hout =>
        ih i item d ds hi hout ⟨htype, hv item (List.mem_of_getElem? hi), rfl⟩
      have hvalues : outs.map Prod.fst = items.map Completion.value := by
        refine List.ext_getElem (by simp [hlength]) fun i hi hi' => ?_
        rw [List.getElem_map, List.getElem_map]
        have hlt : i < outs.length := by simpa using hi
        have hlt' : i < items.length := by simpa using hi'
        exact (hitem i items[i] outs[i].1 outs[i].2 (List.getElem?_eq_getElem hlt')
          (List.getElem?_eq_getElem hlt)).1
      refine ⟨Completion.array_eq_value_iff.2 ⟨items, hvalues, rfl⟩, fun e he => ?_⟩
      obtain ⟨ds, hds, he⟩ := hmerged.mem_iff.1 he
      obtain ⟨⟨d, ds⟩, hout, rfl⟩ := List.mem_map.1 hds
      obtain ⟨i, hi⟩ := List.mem_iff_getElem?.1 hout
      have hlt : i < items.length := by
        rw [hlength]
        exact (List.getElem?_eq_some_iff.1 hi).1
      exact (hitem i items[i] d ds (List.getElem?_eq_getElem hlt) hi).2 e he
  | notArray site type path hnull harray =>
    rintro v ⟨-, hv, rfl⟩
    cases hv with
    | null => cases hnull
    | list => exact absurd rfl (harray _)
  | leaf site path hnull hleaf hout =>
    rintro v ⟨-, hv, rfl⟩
    cases hout.symm.trans (TypeRef.coerceOutput_of_canonical hv hnull hleaf)
    exact ⟨rfl, nofun⟩
  | invalidLeaf site path hnull hleaf hout =>
    rintro v ⟨-, hv, rfl⟩
    cases hout.symm.trans (TypeRef.coerceOutput_of_canonical hv hnull hleaf)
  | ofObject _ hd =>
    rintro v ⟨⟨d, hd', hleaf⟩, -⟩
    cases hd.symm.trans hd'
    cases hleaf
  | ofAbstract _ hd habstract | noConcrete _ _ _ hd habstract =>
    rintro v ⟨⟨d, hd', hleaf⟩, -⟩
    cases hd.symm.trans hd'
    rw [TypeDefinition.isLeaf_eq_false habstract] at hleaf
    cases hleaf
  | unknownType _ _ _ hd =>
    rintro v ⟨⟨d, hd', hleaf⟩, -⟩
    obtain ⟨type, rfl⟩ := hd d hd'
    cases hleaf
  | _ =>
    intro v hv
    exact hv.elim

end Execution

/-- The field is declared as `f(x: T): T` for a type `T` of leaves, and its resolver answers the
argument, or null if there is none. -/
structure FieldDefinition.Echoes (schema : Schema) (x : String) (d : FieldDefinition) : Prop where
  type : d.type.OverLeaves schema
  arguments : ∃ argument, d.arguments = [(x, argument)] ∧ argument.type = d.type
  resolver : ∃ r, d.resolver = some r ∧
    ∀ i c, (r.answer i c).1 = .value ((Entries.get? x i.arguments).getD .null)

/-- What such a field is given is canonical, also if it is given nothing. -/
theorem FieldDefinition.Echoes.canonical {schema : Schema} {x : String} {d : FieldDefinition}
    (h : d.Echoes schema x) {bindings : Entries Value} {given : List (Argument Literal)}
    {arguments : Entries Value} (ha : d.coerceArguments schema bindings given = .ok arguments) :
    schema.Canonical d.type ((Entries.get? x arguments).getD .null) := by
  obtain ⟨argument, hdeclared, htype⟩ := h.arguments
  have hall := canonicalAll_of_coerceArguments ha
  rw [hdeclared] at hall
  rw [← htype]
  cases hall with
  | given hv hrest =>
    cases hrest
    simpa [Entries.get?] using hv
  | omitted _ hnull hrest =>
    cases hrest
    exact .null hnull

namespace Execution

/-- Calls are answered by their resolvers, in some context. -/
def World.Answering (w : World) : Prop :=
  ∀ k r, w.answers k r → ∃ context, r = (k.resolver.answer k.invocation context).1

theorem State.answering_world (first last : State) (number : Nat) :
    (State.world first last number).Answering := by
  rintro k r ⟨st, st', -, -, run, path, stage, next, es, change, -, -, rfl, -, -⟩
  exact ⟨st.contexts.read run.context, rfl⟩

/-- As long as no deadline passes, a field that answers its argument records no error, and it yields
the argument unless its call is skipped. -/
theorem Does.echoes_field {s : Setting} {w : World} {room : Nat} {type : ObjectType}
    {parent : Value} {f : Field Literal} {fields : List (Field Literal)} {path : Path}
    {c : Completion} {es : List Event}
    (h : Does s w room (.field type parent (f :: fields) path) c es) {d : FieldDefinition}
    {x : String} {arguments : Entries Value} (hname : f.head.name ≠ "__typename")
    (hd : Entries.get? f.head.name type.fields = some d) (hecho : d.Echoes s.schema x)
    (hdirectives : f.head.directives = [])
    (ha : d.coerceArguments s.schema s.bindings f.head.arguments = .ok arguments)
    (hanswers : w.Answering) (htime : ¬ w.refuses .timedOut) :
    (∀ e ∈ es, e.error? = none) ∧
      (c = .value ((Entries.get? x arguments).getD .null) ∨ w.refuses .skipped) := by
  obtain ⟨r, hr, hanswer⟩ := hecho.resolver
  cases h with
  | typename _ _ _ h => exact absurd h hname
  | undefined _ _ _ _ h => cases h.symm.trans hd
  | field _ hd' h =>
    cases hd'.symm.trans hd
    cases h with
    | invalidArgument _ _ h => cases h.symm.trans ha
    | unresolved _ h _ => cases h.symm.trans hr
    | skipped _ _ _ _ h => exact ⟨by simp [Event.error?], .inr h⟩
    | timedOut _ _ _ _ h => exact absurd h htime
    | called ha' hr' hi _ hk h =>
      cases ha'.symm.trans ha
      cases hr'.symm.trans hr
      subst hi
      obtain ⟨context, rfl⟩ := hanswers _ _ hk
      rw [hanswer] at h
      have htransform : ∀ (v : Value) context, (Except.ok v).bind
          (s.directives.transform s.bindings context f.head.directives) = .ok v := by
        intro v context
        rw [hdirectives]
        rfl
      cases h with
      | failed _ _ _ h => cases h.symm.trans (htransform _ _)
      | produced _ h hdone =>
        cases h.symm.trans (htransform _ _)
        obtain ⟨hc, hes⟩ := hdone.echoes ⟨hecho.type, hecho.canonical ha, rfl, by simp⟩
        refine ⟨?_, .inl hc⟩
        simpa [Event.error?] using hes

/-- A selection of one field is that field. -/
theorem Setting.collect_field (s : Setting) (site : Site) {head : FieldHead Literal}
    (hdirectives : head.directives = []) (selections : List (Selection Literal)) :
    s.collect site [.field head selections] =
      ⟨[], [(head.responseKey, [⟨head, selections⟩])], []⟩ := by
  have hincluded : s.directives.includes s.bindings site.context head.directives = .ok true := by
    rw [hdirectives]
    rfl
  rw [collect]
  cases s.document.fragments.length <;>
    simp [collectWithin, collectNodes, collectNode, whenIncluded, hincluded, Collected.addField,
      Collected.empty, Entries.insert, Entries.get?]

end Execution

namespace Submission

variable {Memory : Type} {submissions : List Submission} {contexts : ContextStore}
  {number : Nat} {s : Submission}

/-- As long as the deadline has not passed calls are at most skipped. -/
theorem not_refuses_timedOut {schedule : Schedule Memory} {memory : Memory}
    (hs : submissions[number]? = some s)
    (hahead : ((run schedule memory submissions contexts).contexts.read
      (s.plan contexts).2).isExpired = false) :
    ¬ (world schedule memory submissions contexts number).refuses .timedOut := by
  rintro ⟨st, run', hb, hr, hrefusal⟩
  have hcontext : (st.contexts.read run'.context).isExpired = false := by
    rw [(run_of_between hs hb hr).2]
    by_contra he
    rw [State.isExpired_of_reaches hb.2 (by simpa using he)] at hahead
    cases hahead
  rw [State.refusal?, hcontext] at hrefusal
  split at hrefusal <;> cases hrefusal

/-- A field `f(x: T): T` without directives, for a type `T` of leaves, whose resolver answers the
argument, yields what its argument is coerced to, and null without an argument, and records no
error. -/
theorem field_echoes (schedule : Schedule Memory) (memory : Memory)
    (hs : submissions[number]? = some s) {plan : Plan} (hp : (s.plan contexts).1 = .ok (some plan))
    (hf : s.query.executor.Faithful)
    (hahead : ((run schedule memory submissions contexts).contexts.read
      (s.plan contexts).2).isExpired = false)
    {type : ObjectType} {head : FieldHead Literal} {d : FieldDefinition} {x : String}
    {arguments : Entries Value} (hname : head.name ≠ "__typename")
    (hd : Entries.get? head.name type.fields = some d)
    (hecho : d.Echoes s.query.executor.schema x) (hdirectives : head.directives = [])
    (ha : d.coerceArguments s.query.executor.schema plan.bindings head.arguments =
      .ok arguments) :
    (∀ (w : World) room parent selections rest path c es, w.Answering → (∀ r, ¬ w.refuses r) →
      Ends w ((s.setting plan).field
        ((s.setting plan).selectionSet room s.query.executor.nested) type parent
        (⟨head, selections⟩ :: rest) path) c es →
      c = .value ((Entries.get? x arguments).getD .null) ∧ ∀ e ∈ es, e.error? = none) ∧
    (type = plan.rootType → ∀ selections, plan.operation.selections = [.field head selections] →
      s.conclude contexts number (run schedule memory submissions contexts) =
        .ok ⟨some (.object [(head.responseKey, (Entries.get? x arguments).getD .null)]), [],
          []⟩) := by
  constructor
  · intro w room parent selections rest path c es hanswers hrefuses h
    have hdoes : Does (s.setting plan) w room (.field type parent (⟨head, selections⟩ :: rest) path)
        c es := Does.of_field (Does.of_selectionSet hf.nested hf.nested) hf.nested h
    obtain ⟨hes, hc | hskipped⟩ :=
      hdoes.echoes_field hname hd hecho hdirectives ha hanswers (hrefuses _)
    · exact ⟨hc, hes⟩
    · exact absurd hskipped (hrefuses _)
  · rintro rfl selections hselections
    obtain ⟨c, hdoes, hout⟩ := exists_does schedule memory hs hp hf
    rw [job, hselections] at hdoes
    generalize hes : (run schedule memory submissions contexts).events number = es at hdoes
    cases hdoes with
    | @object _ _ _ _ _ _ collected outs merged _ hcollect hlength hfields hmerged =>
      rw [Setting.collect_field _ _ hdirectives] at hcollect
      subst hcollect
      obtain ⟨⟨c, es⟩, rfl⟩ := List.length_eq_one_iff.1 hlength.symm
      obtain ⟨hquiet, hc⟩ := (hfields 0 _ _ _ _ rfl rfl).echoes_field hname hd hecho hdirectives ha
        (State.answering_world _ _ number) (not_refuses_timedOut hs hahead)
      have hmerged : Interleaving ([] ++ es :: []) merged := hmerged
      obtain rfl : merged = es := hmerged.eq_of_singleton nofun nofun
      have hnone : (run schedule memory submissions contexts).errors number = [] := by
        rw [State.errors, hes]
        exact List.filterMap_eq_nil_iff.2 hquiet
      obtain rfl := hc.resolve_right (not_refuses_skipped hnone)
      have hsorted : ∀ data, sortErrors data [] = [] := fun data => (sortErrors_perm data []).eq_nil
      rw [conclude, hp]
      simp only [Executor.conclude, hout, hnone, Output.of, hsorted]
      cases s.query.executor.configuration.debug <;> rfl

end Submission

/-- A field whose type is a list of the values of an enum. -/
def FieldDefinition.mirror : FieldDefinition where
  name := "f"
  type := .list (.nonNull (.named "E"))
  arguments := [("x", ⟨"x", .list (.nonNull (.named "E")), none⟩)]
  resolver := some (.plain fun i => .ok ((Entries.get? "x" i.arguments).getD .null))

def Executor.mirror : Executor where
  schema := ⟨[("E", .enum ⟨"E", ["A", "B"]⟩), ("Query", .object ⟨"Query", [], [("f", .mirror)]⟩)],
    ⟨some "Query", none, none⟩, []⟩
  configuration := {}
  directives := .standard
  rootValue := .null
  rootStrategy := fun _ => .serial
  nested := .serial
  validator := none
  queryCache := none

theorem FieldDefinition.echoes_mirror :
    FieldDefinition.mirror.Echoes Executor.mirror.schema "x" where
  type := ⟨_, rfl, rfl⟩
  arguments := ⟨_, rfl, rfl⟩
  resolver := ⟨_, rfl, fun _ _ => rfl⟩

/-- The submission of `{f(x: B)}`. -/
def Submission.mirror : Submission where
  query := Executor.mirror.prepare ⟨[("", ⟨none, .query, [], [],
    [.field ⟨none, "f", [⟨"x", .enum "B"⟩], [], none⟩ []], none⟩)], []⟩
  variableValues := []
  context := ⟨0, none⟩
  operationName := none

/-- A single value is coerced to a list and comes back as one. -/
theorem Submission.field_echoes_mirror :
    Submission.mirror.conclude ⟨[[]], 0⟩ 0 (run .first () [.mirror] ⟨[[]], 0⟩) =
      .ok ⟨some (.object [("f", .array [.string "B"])]), [], []⟩ := by
  let head : FieldHead Literal := ⟨none, "f", [⟨"x", .enum "B"⟩], [], none⟩
  let plan : Plan :=
    ⟨⟨none, .query, [], [], [.field head []], none⟩, ⟨"Query", [], [("f", .mirror)]⟩, []⟩
  have hs : [Submission.mirror][0]? = some .mirror := rfl
  have hp : (Submission.mirror.plan ⟨[[]], 0⟩).1 = .ok (some plan) := rfl
  have hf : Submission.mirror.query.executor.Faithful :=
    ⟨fun _ => Strategy.faithful_serial, Strategy.faithful_serial⟩
  have hd : Entries.get? head.name plan.rootType.fields = some .mirror := rfl
  have ha : FieldDefinition.mirror.coerceArguments Executor.mirror.schema plan.bindings
      head.arguments = .ok [("x", .array [.string "B"])] := rfl
  have h := field_echoes .first () hs hp hf rfl (by decide) hd FieldDefinition.echoes_mirror rfl ha
  exact h.2 rfl [] rfl

end GraphQL
