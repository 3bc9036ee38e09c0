import GraphQL.Proofs.Execution.Collection
import GraphQL.Proofs.Execution.Completions
import GraphQL.Proofs.Execution.Submissions
import GraphQL.Proofs.Schema.Loaded

/-!
The data of a response has the shape that the schema and the selections call for.

`Fits` tells which values may stand at a position of a type. What an execution completes a position
with fits it (`Does.allows`), and so do the data of every output, whatever the resolvers answer and
however the execution is scheduled.
-/

set_option autoImplicit false

namespace GraphQL.Execution

open Json

section

variable (s : Setting) (sees : Context → Prop)

mutual

/-- A value may stand at a position of a type, under the selections that are made there. -/
inductive Fits : TypeRef → List (Selection Literal) → Path → Value → Prop where
  | null {type : TypeRef} {selections : List (Selection Literal)} {path : Path} :
      type.isNonNull = false → Fits type selections path .null
  | nonNull {type : TypeRef} {selections : List (Selection Literal)} {path : Path} {v : Value} :
      v.isNull = false → Fits type selections path v → Fits (.nonNull type) selections path v
  | list {type : TypeRef} {selections : List (Selection Literal)} {path : Path}
      {items : List Value} :
      (∀ (i : Nat) item, items[i]? = some item →
        Fits type selections (path.join (.index i)) item) →
      Fits (.list type) selections path (.array items)
  | int {selections : List (Selection Literal)} {path : Path} {i : Int} :
      -2147483648 ≤ i → i < 2147483648 → Fits .int selections path (.int i)
  | float {selections : List (Selection Literal)} {path : Path} (n : Number) :
      Fits .float selections path (.number n)
  | string {selections : List (Selection Literal)} {path : Path} (text : String) :
      Fits .string selections path (.string text)
  | id {selections : List (Selection Literal)} {path : Path} (text : String) :
      Fits .id selections path (.string text)
  | boolean {selections : List (Selection Literal)} {path : Path} (b : Bool) :
      Fits .boolean selections path (.bool b)
  | scalar {name : String} {selections : List (Selection Literal)} {path : Path} {v : Value} :
      s.schema.type? name = some (.scalar name) → Fits (.named name) selections path v
  | enum {type : EnumType} {selections : List (Selection Literal)} {path : Path} {text : String} :
      s.schema.type? type.name = some (.enum type) → text ∈ type.values →
      Fits (.named type.name) selections path (.string text)
  | object {type : ObjectType} {selections : List (Selection Literal)} {path : Path}
      {members : Entries Value} : s.schema.type? type.name = some (.object type) →
      FitsObject type selections path members →
      Fits (.named type.name) selections path (.object members)
  | abstract {name : String} {type : ObjectType} {selections : List (Selection Literal)}
      {path : Path} {members : Entries Value} :
      s.schema.isPossibleType name type.name = true →
      s.schema.type? type.name = some (.object type) → FitsObject type selections path members →
      Fits (.named name) selections path (.object members)

/-- The members of an object have the response keys that are collected for its type, in their order,
and values that fit their fields. -/
inductive FitsObject :
    ObjectType → List (Selection Literal) → Path → Entries Value → Prop where
  | intro {type : ObjectType} {selections : List (Selection Literal)} {path : Path}
      {members : Entries Value} {context : Context} {collected : Collected} : sees context →
      s.collect ⟨type.name, path, context⟩ selections = collected →
      Entries.keys members = Entries.keys collected.groups →
      (∀ (i : Nat) key fields v, collected.groups[i]? = some (key, fields) →
        members[i]? = some (key, v) → FitsField type fields (path.join (.key key)) v) →
      FitsObject type selections path members

/-- A value fits the first of the fields with its response key. -/
inductive FitsField : ObjectType → List (Field Literal) → Path → Value → Prop where
  | typename {type : ObjectType} {f : Field Literal} {fields : List (Field Literal)}
      {path : Path} : f.head.name = "__typename" →
      FitsField type (f :: fields) path (.string type.name)
  | undefined {type : ObjectType} {f : Field Literal} {fields : List (Field Literal)}
      {path : Path} : f.head.name ≠ "__typename" →
      Entries.get? f.head.name type.fields = none → FitsField type (f :: fields) path .null
  | defined {type : ObjectType} {f : Field Literal} {d : FieldDefinition}
      {fields : List (Field Literal)} {path : Path} {v : Value} : f.head.name ≠ "__typename" →
      Entries.get? f.head.name type.fields = some d →
      Fits d.type ((f :: fields).flatMap (·.selections)) path v →
      FitsField type (f :: fields) path v

end

/-- A value is one that a job may come to. -/
def Job.Allows : Job → Value → Prop
  | .object type _ selections path, v =>
    ∃ members, v = .object members ∧ FitsObject s sees type selections path members
  | .field type _ fields path, v => fields ≠ [] → FitsField s sees type fields path v
  | .defined site d _ path, v => Fits s sees d.type site.selections path v
  | .resolved site type _ path, v => Fits s sees type site.selections path v
  | .item site type _ path, v => Fits s sees type site.selections path v
  | .position site refusesNull type _ path, v =>
    Fits s sees type site.selections path v ∧ (refusesNull = true → v.isNull = false)
  | .value site type _ path, v => v.isNull = false → Fits s sees type site.selections path v

end

theorem int32?_bounds {v : Value} {i : Int} (h : v.int32? = some i) :
    -2147483648 ≤ i ∧ i < 2147483648 := by
  unfold Value.int32? at h
  split at h
  · next n =>
    obtain ⟨-, hi⟩ := Option.filter_eq_some_iff.1 h
    simpa using hi
  · cases h

theorem fits_of_coerceOutput {s : Setting} {sees : Context → Prop} (hs : s.schema.WellFormed)
    {type : TypeRef} {value v : Value} {selections : List (Selection Literal)} {path : Path}
    (h : type.coerceOutput s.schema value = .ok v) : Fits s sees type selections path v := by
  unfold TypeRef.coerceOutput at h
  split at h
  · split at h
    · next i hi =>
      cases h
      exact .int (int32?_bounds hi).1 (int32?_bounds hi).2
    · cases h
  · cases h
    exact .float _
  · cases h
    exact .string _
  · cases h
    exact .string _
  · cases h
    exact .string _
  · cases h
    exact .boolean _
  · cases h
    exact .id _
  · cases h
    exact .id _
  · next _ name =>
    split at h
    · next n hn =>
      cases h
      obtain rfl : n = name := (hs name _ hn).1
      exact .scalar hn
    · next type hn =>
      obtain rfl : type.name = name := (hs name _ hn).1
      split at h
      · next text ht =>
        split at h
        · next hmem =>
          cases h
          unfold Value.string? at ht
          split at ht <;> cases ht
          exact .enum hn hmem
        · cases h
      · cases h
    · cases h
  · cases h

theorem fits_givenUp {s : Setting} {sees : Context → Prop} {type : TypeRef}
    {selections : List (Selection Literal)} {path : Path} (v : Value)
    (h : type.givenUp = .value v) : Fits s sees type selections path v := by
  unfold TypeRef.givenUp at h
  split at h
  · cases h
  · next hn =>
    cases h
    exact .null (by simpa using hn)

namespace Does

variable {s : Setting} {w : World} {room : Nat} {job : Job} {c : Completion} {es : List Event}

/-- A job comes to a value that it allows, if it does not propagate. -/
theorem allows (hs : s.schema.WellFormed) (h : Does s w room job c es) :
    ∀ v, c = .value v → job.Allows s w.sees v := by
  induction h with
  | tooDeep =>
    intro v hv
    cases hv
  | @object room type value selections path context collected outs merged hc hcol hl ho hm ih =>
    intro v hv
    have htidy := Setting.collect_tidy_true s ⟨type.name, path, context⟩ selections
    rw [hcol] at htidy
    have hlen : (outs.map Prod.fst).length = (Entries.keys collected.groups).length := by
      simp [Entries.keys, hl]
    obtain ⟨vs, hvs, rfl⟩ := (Completion.object_eq_value_iff htidy.nodup hlen).1 hv
    have hvlen : (Entries.keys collected.groups).length = vs.length := by
      rw [← hlen, hvs, List.length_map]
    refine ⟨_, rfl, .intro hc hcol (Entries.keys_zip hvlen) fun i key fields v hg hmem => ?_⟩
    obtain ⟨hkey, hv⟩ := List.getElem?_zip_eq_some.1 hmem
    obtain ⟨ds, hd⟩ := Completion.exists_of_map_fst hvs hv
    exact ih i key fields _ ds hg hd v rfl (htidy.groups key fields (List.mem_of_getElem? hg)).1
  | unselected => exact fun v _ hf => absurd rfl hf
  | typename parent fields path hname =>
    rintro v ⟨⟩ -
    exact .typename hname
  | undefined parent fields path hname hd =>
    rintro v ⟨⟩ -
    exact .undefined hname hd
  | field hname hd _ ih => exact fun v hv _ => .defined hname hd (ih v hv)
  | @invalidArgument room site d e parent path _ => exact fits_givenUp
  | unresolved _ _ _ ih => exact ih
  | skipped _ _ _ _ _ => exact fits_givenUp
  | timedOut _ _ _ _ _ => exact fits_givenUp
  | called _ _ _ _ _ _ ih => exact ih
  | failed _ _ _ _ => exact fits_givenUp
  | produced _ _ _ ih => exact fun v hv => (ih v hv).1
  | item _ ih => exact fun v hv => (ih v hv).1
  | marked _ ih =>
    refine fun v hv => ⟨.nonNull ?_ (ih v hv).1, fun hrefuses => ?_⟩
    · exact (ih v hv).2 rfl
    · cases hrefuses
  | @absorbed room site type value path c es hn _ ih =>
    intro v hv
    refine ⟨?_, fun hrefuses => by cases hrefuses⟩
    cases c with
    | propagate =>
      cases hv
      exact .null hn
    | value x =>
      cases hv
      cases hnull : v.isNull with
      | false => exact ih v rfl hnull
      | true =>
        cases v <;> cases hnull
        exact .null hn
  | refused =>
    intro v hv
    cases hv
  | @kept room site type value path c es hn _ ih =>
    rintro v rfl
    exact ⟨ih v rfl hn, fun _ => hn⟩
  | null =>
    rintro v ⟨⟩ hv
    cases hv
  | unmarked _ _ ih => exact fun v hv hnull => .nonNull hnull (ih v hv).1
  | @array room site type items path outs merged hl ho hm ih =>
    intro v hv _
    obtain ⟨vs, hvs, rfl⟩ := Completion.array_eq_value_iff.1 hv
    refine .list fun i item hitem => ?_
    obtain ⟨ds, hd⟩ := Completion.exists_of_map_fst hvs hitem
    obtain ⟨hi, -⟩ := List.getElem?_eq_some_iff.1 hd
    exact ih i items[i] _ ds (List.getElem?_eq_getElem (by omega)) hd item rfl
  | notArray =>
    intro v hv
    cases hv
  | leaf site path hv hl hc =>
    rintro v ⟨⟩ -
    exact fits_of_coerceOutput hs hc
  | invalidLeaf =>
    intro v hv
    cases hv
  | @ofObject room site name type value path c es hv ht _ ih =>
    intro v hc _
    obtain ⟨members, rfl, hm⟩ := ih v hc
    obtain rfl : type.name = name := (hs name _ ht).1
    exact .object ht hm
  | @ofAbstract room site name d type value path c es hv hd ha ht _ ih =>
    intro v hc _
    obtain ⟨members, rfl, hm⟩ := ih v hc
    obtain ⟨claimed, -, hp, hclaimed⟩ := Schema.exists_of_concreteType? ht
    obtain rfl : type.name = claimed := (hs claimed _ hclaimed).1
    exact .abstract hp hclaimed hm
  | noConcrete =>
    intro v hv
    cases hv
  | unknownType =>
    intro v hv
    cases hv

end Does

end GraphQL.Execution

namespace GraphQL.Submission

open Json Execution

variable {Memory : Type}

/-- The data of an execution is null, or an object with the response keys that are collected for the
root type, whose members fit their fields. -/
theorem data_conforms (schedule : Schedule Memory) (memory : Memory)
    {submissions : List Submission} {contexts : ContextStore} {number : Nat} {s : Submission}
    {plan : Plan} (hs : submissions[number]? = some s)
    (hp : (s.plan contexts).1 = .ok (some plan)) (hload : s.query.executor.schema.Loaded)
    (hf : s.query.executor.Faithful) :
    ((run schedule memory submissions contexts).output number).data = .null ∨
      ∃ members, ((run schedule memory submissions contexts).output number).data =
          .object members ∧
        FitsObject (s.setting plan) (world schedule memory submissions contexts number).sees
          plan.rootType plan.operation.selections [] members := by
  obtain ⟨c, hdoes, hout⟩ := exists_does schedule memory hs hp hf
  rw [hout]
  cases c with
  | propagate => exact .inl rfl
  | value v => exact .inr (hdoes.allows hload.wellFormed v rfl)

theorem data_conforms_late :
    let s := late (.constant (.int 7))
    let plan := Plan.late (.constant (.int 7))
    let last := run .ticking () [s] ⟨[[]], 0⟩
    s.query.executor.schema.Loaded ∧
      last.output 0 = ⟨.object [("a", .int 7), ("c", .null)], [.late]⟩ ∧
      ((last.output 0).data = .null ∨ ∃ members, (last.output 0).data = .object members ∧
        FitsObject (s.setting plan) (world .ticking () [s] ⟨[[]], 0⟩ 0).sees plan.rootType
          plan.operation.selections [] members) :=
  ⟨Schema.loaded_small _, output_late, data_conforms .ticking () rfl rfl (Schema.loaded_small _)
    (Executor.faithful_small _)⟩

end GraphQL.Submission
