import GraphQL.Execution.Complete
import GraphQL.Proofs.Entries

/-!
Tasks that differ only in the errors that they record while they collect fields.

Executions of two documents have such tasks if collecting from them always leaves the same response
keys, with fields that begin alike and go on with selections that are related again
(`Setting.Mirrors.selectionSet`).
-/

set_option autoImplicit false

namespace GraphQL

open Json

namespace Execution

namespace Task

/-- Two tasks are the same but for the errors of collecting, which are related. -/
inductive Mirrors (R : List Error → List Error → Prop) : Task → Task → Prop where
  | done (c : Completion) : Mirrors R (.done c) (.done c)
  | emit (e : Event) {next next' : Task} : Mirrors R next next' →
      Mirrors R (.emit e next) (.emit e next')
  | collecting {errors errors' : List Error} {next next' : Task} : R errors errors' →
      Mirrors R next next' →
      Mirrors R (emitAll (errors.map .collecting) next) (emitAll (errors'.map .collecting) next')
  | read {next next' : Context → Task} : (∀ context, Mirrors R (next context) (next' context)) →
      Mirrors R (.read next) (.read next')
  | call (k : Call) (stage : Stage) {next next' : Reply → Task} :
      (∀ r, Mirrors R (next r) (next' r)) → Mirrors R (.call k stage next) (.call k stage next')
  | fork (s : Strategy) {children children' : List Task} {next next' : List Completion → Task} :
      children.length = children'.length →
      (∀ (i : Nat) t t', children[i]? = some t → children'[i]? = some t' → Mirrors R t t') →
      (∀ cs, Mirrors R (next cs) (next' cs)) →
      Mirrors R (.fork s children next) (.fork s children' next')

theorem bind_emitAll (f : Completion → Task) (events : List Event) (next : Task) :
    (emitAll events next).bind f = emitAll events (next.bind f) := by
  induction events with
  | nil => rfl
  | cons e events ih => exact congrArg (emit e) ih

namespace Mirrors

variable {R : List Error → List Error → Prop}

theorem bind {f f' : Completion → Task} (hf : ∀ c, Mirrors R (f c) (f' c)) {t t' : Task}
    (h : Mirrors R t t') : Mirrors R (t.bind f) (t'.bind f') := by
  induction h with
  | done c => exact hf c
  | emit e _ ih => exact .emit e ih
  | collecting hR _ ih =>
    rw [bind_emitAll, bind_emitAll]
    exact .collecting hR ih
  | read _ ih => exact .read ih
  | call k stage _ ih => exact .call k stage ih
  | fork s hl hc _ _ ih => exact .fork s hl hc ih

/-- Tasks with the same errors of collecting are the same. -/
theorem eq {t t' : Task} (h : Mirrors Eq t t') : t = t' := by
  induction h with
  | done c => rfl
  | emit e _ ih => rw [ih]
  | collecting hR _ ih => rw [hR, ih]
  | read _ ih => rw [funext ih]
  | call k stage _ ih => rw [funext ih]
  | fork s hl _ _ ihc ih =>
    have hchildren := List.ext_getElem hl fun i h h' =>
      ihc i _ _ (List.getElem?_eq_getElem h) (List.getElem?_eq_getElem h')
    rw [hchildren, funext ih]

end Mirrors

end Task

/-- The setting of the execution of another document. -/
def Setting.withDocument (s : Setting) (d : Document) : Setting := { s with document := d }

namespace Setting

variable (s : Setting) (d : Document)

@[simp] theorem withDocument_schema : (s.withDocument d).schema = s.schema := rfl

@[simp] theorem withDocument_bindings : (s.withDocument d).bindings = s.bindings := rfl

@[simp] theorem withDocument_directives : (s.withDocument d).directives = s.directives := rfl

end Setting

/-- Fields that do the same before their selections matter. -/
structure HeadsAlike (s : Setting) (head head' : FieldHead Literal) : Prop where
  name : head.name = head'.name
  arguments : head.arguments = head'.arguments
  location : head.location = head'.location
  transform : ∀ context, s.directives.transform s.bindings context head.directives =
    s.directives.transform s.bindings context head'.directives

/-- Sites of fields that begin alike and whose selections lead to tasks of objects that mirror each
other. -/
structure SitesMirror (s : Setting) (R : List Error → List Error → Prop)
    (object object' : ObjectTask) (site site' : FieldSite) : Prop where
  parentType : site.parentType = site'.parentType
  head : HeadsAlike s site.first site'.first
  object : ∀ type value path, Task.Mirrors R (object type value site.selections path)
    (object' type value site'.selections path)

open GraphQL.Execution.Task (Mirrors)

namespace SitesMirror

variable {s : Setting} {R : List Error → List Error → Prop} {d : Document}
  {object object' : ObjectTask} {site site' : FieldSite}

theorem error_eq (h : SitesMirror s R object object' site site') : site.error = site'.error := by
  funext message path
  rw [FieldSite.error, FieldSite.error, h.head.location]

theorem codedError_eq (h : SitesMirror s R object object' site site') :
    site.codedError = site'.codedError := by
  funext message code path
  rw [FieldSite.codedError, FieldSite.codedError, h.error_eq]

theorem qualifiedName_eq (h : SitesMirror s R object object' site site') :
    site.qualifiedName = site'.qualifiedName := by
  rw [FieldSite.qualifiedName, FieldSite.qualifiedName, h.parentType, h.head.name]

theorem fail (h : SitesMirror s R object object' site site') (message : String) (path : Path) :
    Mirrors R (site.fail message path) (site'.fail message path) := by
  rw [FieldSite.fail, FieldSite.fail, h.error_eq]
  exact .emit _ (.done _)

theorem settle (h : SitesMirror s R object object' site site') (refusesNull : Bool) (path : Path)
    {t t' : Task} (ht : Mirrors R t t') :
    Mirrors R (site.settle refusesNull path t) (site'.settle refusesNull path t') := by
  refine Mirrors.bind (fun c => ?_) ht
  rw [h.qualifiedName_eq]
  split
  · split
    · exact h.fail _ path
    · exact .done _
  · exact .done _

theorem completeLeaf (h : SitesMirror s R object object' site site') (type : TypeRef)
    (value : Value) (path : Path) :
    Mirrors R (s.completeLeaf site type value path)
      ((s.withDocument d).completeLeaf site' type value path) := by
  unfold Setting.completeLeaf
  rw [Setting.withDocument_schema]
  split
  · exact .done _
  · exact h.fail _ path

theorem abstract (h : SitesMirror s R object object' site site') (name : String) (value : Value)
    (path : Path) :
    Mirrors R (Setting.completeNamed.abstract s object site name value path)
      (Setting.completeNamed.abstract (s.withDocument d) object' site' name value path) := by
  unfold Setting.completeNamed.abstract
  rw [h.qualifiedName_eq, Setting.withDocument_schema]
  split
  · exact h.object _ value path
  · exact h.fail _ path

theorem completeNamed (h : SitesMirror s R object object' site site') (name : String)
    (value : Value) (path : Path) :
    Mirrors R (s.completeNamed object site name value path)
      ((s.withDocument d).completeNamed object' site' name value path) := by
  unfold Setting.completeNamed
  rw [Setting.withDocument_schema]
  split
  · exact h.completeLeaf _ value path
  · exact h.completeLeaf _ value path
  · exact h.object _ value path
  · exact h.abstract name value path
  · exact h.abstract name value path
  · exact h.fail _ path

theorem complete (h : SitesMirror s R object object' site site') : ∀ (type : TypeRef)
    (refusesNull : Bool) (value : Value) (path : Path),
    Mirrors R (s.complete object site refusesNull type value path)
      ((s.withDocument d).complete object' site' refusesNull type value path) := by
  have hif : ∀ {b : Bool} {t t' : Task}, Mirrors R t t' →
      Mirrors R (if b then .done (.value .null) else t)
        (if b then .done (.value .null) else t') := by
    intro b t t' ht
    split
    · exact .done _
    · exact ht
  intro type
  induction type with
  | nonNull inner ih =>
    intro refusesNull value path
    cases refusesNull with
    | false =>
      rw [Setting.complete, Setting.complete]
      exact ih true value path
    | true =>
      rw [Setting.complete, Setting.complete]
      exact h.settle true path (hif (ih false value path))
  | list inner ih =>
    intro refusesNull value path
    cases value with
    | null =>
      rw [Setting.complete, Setting.complete]
      exact h.settle _ path (.done _)
    | array items =>
      rw [Setting.complete, Setting.complete]
      refine h.settle _ path (.fork _ (by simp) (fun i t t' ht ht' => ?_) fun cs => .done _)
      rw [List.getElem?_mapIdx, Option.map_eq_some_iff] at ht ht'
      obtain ⟨item, hi, rfl⟩ := ht
      obtain ⟨item', hi', rfl⟩ := ht'
      obtain rfl : item = item' := Option.some.inj (hi.symm.trans hi')
      exact .emit _ (.emit _ (ih false item _))
    | _ =>
      rw [Setting.complete, Setting.complete]
      · exact h.settle _ path (h.fail _ path)
      all_goals simp
  | named name =>
    intro refusesNull value path
    rw [Setting.complete, Setting.complete]
    exact h.settle _ path (hif (h.completeNamed name value path))
  | string | int | float | id | boolean =>
    intro refusesNull value path
    rw [Setting.complete, Setting.complete]
    · exact h.settle _ path (hif (h.completeLeaf _ value path))
    all_goals simp

theorem afterResolution (h : SitesMirror s R object object' site site') (type : TypeRef)
    (c : Completion) (path : Path) (result : Except FieldError Value) :
    Mirrors R (s.afterResolution object site type (.done c) path result)
      ((s.withDocument d).afterResolution object' site' type (.done c) path result) := by
  refine .read fun context => ?_
  rw [h.head.transform context, h.head.location, Setting.withDocument_directives,
    Setting.withDocument_bindings]
  split
  · exact .emit _ (h.complete type false _ path)
  · exact .emit _ (.done _)

theorem resolveField (h : SitesMirror s R object object' site site') (fd : FieldDefinition)
    (parent : Value) (path : Path) :
    Mirrors R (s.resolveField object site fd parent path)
      ((s.withDocument d).resolveField object' site' fd parent path) := by
  unfold Setting.resolveField
  rw [h.head.arguments, h.head.name, h.parentType, h.codedError_eq, Setting.withDocument_schema,
    Setting.withDocument_bindings]
  simp only
  split
  · exact .emit _ (.done _)
  · split
    · exact h.afterResolution _ _ path _
    · refine .call _ _ fun r => ?_
      cases r with
      | skipped => exact .done _
      | timedOut => exact .emit _ (.done _)
      | resolved r => exact h.afterResolution _ _ path _

end SitesMirror

/-- Fields with one response key in two documents: they begin alike, and their selections are
related. -/
inductive FieldsMirror (s : Setting)
    (S : List (Selection Literal) → List (Selection Literal) → Prop) :
    List (Field Literal) → List (Field Literal) → Prop where
  | nil : FieldsMirror s S [] []
  | cons {f f' : Field Literal} {rest rest' : List (Field Literal)} : HeadsAlike s f.head f'.head →
      S ((f :: rest).flatMap (·.selections)) ((f' :: rest').flatMap (·.selections)) →
      FieldsMirror s S (f :: rest) (f' :: rest')

/-- Related selections are collected to the same response keys, with fields that mirror each other,
and with related errors. -/
structure Setting.Mirrors (s : Setting) (d : Document) (R : List Error → List Error → Prop)
    (S : List (Selection Literal) → List (Selection Literal) → Prop) : Prop where
  errors : ∀ {site nodes nodes'}, S nodes nodes' →
    R (s.collect site nodes).errors ((s.withDocument d).collect site nodes').errors
  groups : ∀ {site nodes nodes'}, S nodes nodes' →
    Entries.Alike (FieldsMirror s S) (s.collect site nodes).groups
      ((s.withDocument d).collect site nodes').groups

namespace Setting.Mirrors

variable {s : Setting} {d : Document} {R : List Error → List Error → Prop}
  {S : List (Selection Literal) → List (Selection Literal) → Prop}

theorem field {object object' : ObjectTask}
    (hobject : ∀ type value path nodes nodes', S nodes nodes' →
      Task.Mirrors R (object type value nodes path) (object' type value nodes' path))
    (type : ObjectType) (parent : Value) {fields fields' : List (Field Literal)} (path : Path)
    (h : FieldsMirror s S fields fields') :
    Task.Mirrors R (s.field object type parent fields path)
      ((s.withDocument d).field object' type parent fields' path) := by
  cases h with
  | nil => exact .done _
  | @cons f f' rest rest' hhead hS =>
    have hsite : SitesMirror s R object object'
        ⟨type.name, f.head, (f :: rest).flatMap (·.selections)⟩
        ⟨type.name, f'.head, (f' :: rest').flatMap (·.selections)⟩ :=
      ⟨rfl, hhead, fun type value path => hobject type value path _ _ hS⟩
    simp only [Setting.field, hhead.name, hsite.codedError_eq]
    split
    · exact .done _
    · split
      · exact .emit _ (.emit _ (.done _))
      · exact .emit _ (hsite.resolveField _ parent path)

theorem selectionSet (h : s.Mirrors d R S) : ∀ (room : Nat) (strategy : Strategy)
    (type : ObjectType) (value : Value) (path : Path) (nodes nodes' : List (Selection Literal)),
    S nodes nodes' → Task.Mirrors R (s.selectionSet room strategy type value nodes path)
      ((s.withDocument d).selectionSet room strategy type value nodes' path)
  | 0, _, _, _, _, _, _, _ => .emit _ (.done _)
  | room + 1, strategy, type, value, path, nodes, nodes', hS => by
    refine .read fun context => .collecting (h.errors hS) ?_
    have hgroups : Entries.Alike (FieldsMirror s S)
        (s.collect ⟨type.name, path, context⟩ nodes).groups
        ((s.withDocument d).collect ⟨type.name, path, context⟩ nodes').groups := h.groups hS
    rw [hgroups.keys_eq]
    refine .fork _ (by simpa using hgroups.length_eq) (fun i t t' ht ht' => ?_) fun cs => .done _
    rw [List.getElem?_map, Option.map_eq_some_iff] at ht ht'
    obtain ⟨⟨key, fields⟩, hi, rfl⟩ := ht
    obtain ⟨⟨key', fields'⟩, hi', rfl⟩ := ht'
    obtain ⟨rfl, hfields⟩ := hgroups.of_getElem? hi hi'
    exact field (h.selectionSet room s.nested) type value _ hfields

end Setting.Mirrors

end Execution

end GraphQL
