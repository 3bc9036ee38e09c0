import GraphQL.Proofs.Execution.Rules
import GraphQL.Proofs.Schema.Loaded
import GraphQL.Proofs.Schema.Types

/-!
What the tasks of a response are composed of.

The task of a selection set is put together from a few kinds of parts (`Composed`). What holds of
the parts, and of whatever is put together from them, therefore holds of the tasks of all operations
(`Setting.composed_selectionSet`).
-/

set_option autoImplicit false

namespace GraphQL.Execution

open Json

/-- A world in which everything may happen. -/
def World.any : World where
  sees _ := True
  admits := True
  refuses r := ∀ resolution, r ≠ .resolved resolution
  answers _ _ := True
  not_refuses_resolved r h := h r rfl

namespace Setting

/-- A resolver or a directive answers an error. -/
inductive Answers (s : Setting) (w : World) (e : FieldError) : Prop where
  | resolver {k : Call} {r : Resolution} : w.answers k r → r.toExcept k.invocation = .error e →
      Answers s w e
  | inclusion {context : Context} {directives : List (Directive Literal)} : w.sees context →
      s.directives.includes s.bindings context directives = .error e → Answers s w e
  | transformation {context : Context} {directives : List (Directive Literal)} {value : Value} :
      w.sees context → s.directives.transform s.bindings context directives value = .error e →
      Answers s w e

/-- The arguments of some field have a coercion without an end. -/
def CoercesEndlessly (s : Setting) : Prop :=
  ∃ (d : FieldDefinition) (arguments : List (Argument Literal)) (e : ArgumentError),
    d.coerceArguments s.schema s.bindings arguments = .error e ∧ e.isEndless = true

/-- The errors of fields, items and selection sets at a path. The number tells how many levels of
selection sets may still be entered. -/
inductive Fails (s : Setting) (w : World) : Nat → Path → Error → Prop where
  | tooDeep (path : Path) : Fails s w 0 path (depthError path)
  | plain {room : Nat} (site : FieldSite) (message : String) (path : Path) :
      Fails s w room path (site.error message path)
  | coded {room : Nat} (site : FieldSite) (message : String) {code : String} (path : Path) :
      code ≠ SpecError.recursionLimitExceeded.code →
      Fails s w room path (site.codedError message code path)
  | located {room : Nat} {e : FieldError} (location : Option Location) (path : Path) :
      s.Answers w e → Fails s w room path (e.locate location path)

theorem Fails.path_eq {s : Setting} {w : World} {room : Nat} {path : Path} {e : Error}
    (h : s.Fails w room path e) : e.path = some path := by
  cases h <;> rfl

end Setting

/-- Whether a task stands for a position or for the value there, whose null the position settles. -/
inductive Layer where
  | position
  | value

/-- The tasks at a path with a number of levels of selection sets that may still be entered. The
strategies and the object types are of some kind, and `marks` says whether a non-null mark may stand
right inside another one. -/
inductive Composed (s : Setting) (w : World) (S : Strategy → Prop) (T : ObjectType → Prop)
    (marks : Prop) : Layer → Nat → Path → Task → Prop where
  | done (layer : Layer) (room : Nat) (path : Path) (c : Completion) :
      Composed s w S T marks layer room path (.done c)
  | fail {room : Nat} {path : Path} {e : Error} : s.Fails w room path e →
      Composed s w S T marks .value room path (.emit (.failed e) (.done .propagate))
  | giveUp {room : Nat} {path : Path} {e : Error} {endless : Bool} (c : Completion) :
      s.Fails w room path e → (endless = true → s.CoercesEndlessly) →
      Composed s w S T marks .position room path (.emit (.failed e endless) (.done c))
  | reached {room : Nat} {path : Path} {t : Task} (type : Option TypeRef) :
      Composed s w S T marks .position room path t →
      Composed s w S T marks .position room path (.emit (.reached path type) t)
  | produced {room : Nat} {path : Path} {t : Task} (value : Value) :
      Composed s w S T marks .position room path t →
      Composed s w S T marks .position room path (.emit (.produced path value) t)
  | read {room : Nat} {path : Path} {next : Context → Task} :
      (∀ context, w.sees context → Composed s w S T marks .position room path (next context)) →
      Composed s w S T marks .position room path (.read next)
  | call {room : Nat} {path : Path} {type : ObjectType} {site : FieldSite} {d : FieldDefinition}
      {resolver : Resolver} {arguments : Entries Value} {parent : Value} {next : Reply → Task} :
      T type → site.parentType = type.name →
      Entries.get? site.first.name type.fields = some d →
      d.coerceArguments s.schema s.bindings site.first.arguments = .ok arguments →
      d.resolver = some resolver → (∃ c, next .skipped = .done c) →
      Composed s w S T marks .position room path (next .timedOut) →
      (∀ r, w.answers ⟨resolver, parent, arguments, path, site.first.name, site.parentType⟩ r →
        Composed s w S T marks .position room path (next (.resolved r))) →
      Composed s w S T marks .position room path
        (.call ⟨resolver, parent, arguments, path, site.first.name, site.parentType⟩ .fresh next)
  | settle {room : Nat} {path : Path} {t : Task} (site : FieldSite) (refusesNull : Bool) :
      Composed s w S T marks .value room path t →
      Composed s w S T marks .position room path (site.settle refusesNull path t)
  | unmarked {room : Nat} {path : Path} {t : Task} : marks →
      Composed s w S T marks .position room path t → Composed s w S T marks .value room path t
  | items {room : Nat} {path : Path} {strategy : Strategy} {children : List Task} : S strategy →
      (∀ (i : Nat) t, children[i]? = some t →
        Composed s w S T marks .position room (path.join (.index i)) t) →
      Composed s w S T marks .value room path
        (.fork strategy children fun cs => .done (.array cs))
  | object {room : Nat} {path : Path} {strategy : Strategy} (type : ObjectType)
      (selections : List (Selection Literal)) {field : String → List (Field Literal) → Task} :
      S strategy →
      (∀ key fields,
        Composed s w S T marks .position room (path.join (.key key)) (field key fields)) →
      Composed s w S T marks .value (room + 1) path
        (.read fun context =>
          let c := s.collect ⟨type.name, path, context⟩ selections
          Task.emitAll (c.errors.map .collecting) <|
            .fork strategy (c.groups.map fun group => field group.1 group.2)
              fun cs => .done (.object (Entries.keys c.groups) cs))

namespace Setting

variable {s : Setting} {w : World} {S : Strategy → Prop} {T : ObjectType → Prop} {marks : Prop}
  {object : ObjectTask} {room : Nat} {path : Path}

theorem composed_fail (site : FieldSite) (message : String) :
    Composed s w S T marks .value room path (site.fail message path) :=
  .fail (.plain site message path)

theorem composed_completeLeaf (site : FieldSite) (type : TypeRef) (value : Value) :
    Composed s w S T marks .value room path (s.completeLeaf site type value path) := by
  unfold completeLeaf
  split
  · exact .done _ _ _ _
  · exact composed_fail site _

section

variable (hT : ∀ {name type}, s.schema.type? name = some (.object type) → T type)
  (hplain : ∀ {type field d}, T type → Entries.get? field type.fields = some d →
    marks ∨ d.type.Plain)
  (hS : S s.nested)
  (hobject : ∀ {type value selections path}, T type →
    Composed s w S T marks .value room path (object type value selections path))

include hT hobject

theorem composed_abstract (site : FieldSite) (name : String) (value : Value) :
    Composed s w S T marks .value room path
      (completeNamed.abstract s object site name value path) := by
  unfold completeNamed.abstract
  split
  · next type hc =>
    obtain ⟨claimed, -, -, ht⟩ := Schema.exists_of_concreteType? hc
    exact hobject (hT ht)
  · exact composed_fail site _

theorem composed_completeNamed (site : FieldSite) (name : String) (value : Value) :
    Composed s w S T marks .value room path (s.completeNamed object site name value path) := by
  unfold completeNamed
  split
  · exact composed_completeLeaf site _ value
  · exact composed_completeLeaf site _ value
  · next type ht => exact hobject (hT ht)
  · exact composed_abstract hT hobject site name value
  · exact composed_abstract hT hobject site name value
  · exact composed_fail site _

include hS

/-- A position settles its null once, unless a non-null mark stands right inside another one. -/
theorem composed_complete (site : FieldSite) : ∀ (type : TypeRef), marks ∨ type.Plain →
    ∀ (refusesNull : Bool), (refusesNull = true → marks ∨ type.isNonNull = false) →
    ∀ (value : Value) (path : Path),
      Composed s w S T marks .position room path
        (s.complete object site refusesNull type value path) := by
  have hif : ∀ {b : Bool} {path : Path} {t : Task}, Composed s w S T marks .value room path t →
      Composed s w S T marks .value room path (if b then .done (.value .null) else t) := by
    intro b path t ht
    split
    · exact .done _ _ _ _
    · exact ht
  intro type
  induction type with
  | nonNull inner ih =>
    intro htype refusesNull hrefuses value path
    have hinner : marks ∨ inner.Plain := htype.imp_right fun h => h.2
    cases refusesNull with
    | false =>
      rw [complete]
      exact ih hinner true (fun _ => htype.imp_right fun h => h.1) value path
    | true =>
      obtain hmarks | hnonNull := hrefuses rfl
      · rw [complete]
        exact .settle site true (hif (.unmarked hmarks (ih hinner false (by simp) value path)))
      · cases hnonNull
  | list inner ih =>
    intro htype refusesNull _ value path
    cases value with
    | null =>
      rw [complete]
      exact .settle site _ (.done _ _ _ _)
    | array items =>
      rw [complete]
      refine .settle site _ (.items hS fun i t ht => ?_)
      rw [List.getElem?_mapIdx, Option.map_eq_some_iff] at ht
      obtain ⟨item, -, rfl⟩ := ht
      exact .reached _ (.produced _ (ih htype false (by simp) item _))
    | _ =>
      rw [complete]
      · exact .settle site _ (composed_fail site _)
      all_goals simp
  | named name =>
    intro _ refusesNull _ value path
    rw [complete]
    exact .settle site _ (hif (composed_completeNamed hT hobject site name value))
  | string | int | float | id | boolean =>
    intro _ refusesNull _ value path
    rw [complete]
    · exact .settle site _ (hif (composed_completeLeaf site _ value))
    all_goals simp

theorem composed_afterResolution (site : FieldSite) {type : TypeRef} (htype : marks ∨ type.Plain)
    (c : Completion) {result : Except FieldError Value}
    (hr : ∀ e, result = .error e → s.Answers w e) :
    Composed s w S T marks .position room path
      (s.afterResolution object site type (.done c) path result) := by
  refine .read fun context hc => ?_
  split
  · exact .produced _ (composed_complete hT hS hobject site type htype false (by simp) _ path)
  · next e he =>
    refine .giveUp c (.located _ path ?_) nofun
    cases result with
    | error e' =>
      cases he
      exact hr e rfl
    | ok value => exact .transformation hc he

include hplain

theorem composed_resolveField {type : ObjectType} (ht : T type) {site : FieldSite}
    (hsite : site.parentType = type.name) {d : FieldDefinition}
    (hd : Entries.get? site.first.name type.fields = some d) (parent : Value) :
    Composed s w S T marks .position room path (s.resolveField object site d parent path) := by
  unfold resolveField
  simp only
  split
  · next e he => exact .giveUp _ (.coded site _ path (by decide)) fun h => ⟨d, _, e, he, h⟩
  · next arguments ha =>
    have htype := hplain ht hd
    split
    · exact composed_afterResolution hT hS hobject site htype _ (by simp)
    · next resolver hr =>
      refine .call ht hsite hd ha hr ⟨_, rfl⟩ (.giveUp _ (.coded site _ path (by decide)) nofun)
        fun r hanswer => ?_
      exact composed_afterResolution hT hS hobject site htype _ fun e he => .resolver hanswer he

theorem composed_field {type : ObjectType} (ht : T type) (parent : Value)
    (fields : List (Field Literal)) :
    Composed s w S T marks .position room path (s.field object type parent fields path) := by
  unfold field
  split
  · exact .done _ _ _ _
  · next f rest =>
    split
    · exact .done _ _ _ _
    · split
      · exact .reached _ (.giveUp _ (.coded _ _ path (by decide)) nofun)
      · next d hd =>
        exact .reached _ (composed_resolveField hT hplain hS hobject ht rfl hd parent)

end

/-- The task of a selection set is composed of such parts. -/
theorem composed_selectionSet
    (hT : ∀ {name type}, s.schema.type? name = some (.object type) → T type)
    (hplain : ∀ {type field d}, T type → Entries.get? field type.fields = some d →
      marks ∨ d.type.Plain)
    (hS : S s.nested) : ∀ {room : Nat} {strategy : Strategy}, S strategy → ∀ {type : ObjectType}
      {value : Value} {selections : List (Selection Literal)} {path : Path}, T type →
        Composed s w S T marks .value room path
          (s.selectionSet room strategy type value selections path)
  | 0, _, _, _, _, _, path, _ => .fail (.tooDeep path)
  | room + 1, strategy, hstrategy, type, value, selections, path, ht => by
    have hfield : ∀ key fields, Composed s w S T marks .position room (path.join (.key key))
        (s.field (s.selectionSet room s.nested) type value fields (path.join (.key key))) :=
      fun key fields => composed_field hT hplain hS
        (fun ht => composed_selectionSet hT hplain hS hS ht) ht value fields
    exact .object type selections hstrategy hfield

/-- In a well-formed schema no non-null mark stands right inside another one. -/
theorem composed_of_wellFormed (hs : s.schema.WellFormed) (hS : S s.nested) {strategy : Strategy}
    (hstrategy : S strategy) {type : ObjectType} (ht : (TypeDefinition.object type).Plain)
    (value : Value) (selections : List (Selection Literal)) :
    Composed s w S (fun type => (TypeDefinition.object type).Plain) False .value room path
      (s.selectionSet room strategy type value selections path) :=
  composed_selectionSet (fun {name _} h => (hs name _ h).2)
    (fun ht hd => .inr (ht _ (Entries.mem_of_get? hd))) hS hstrategy ht

end Setting

end GraphQL.Execution
