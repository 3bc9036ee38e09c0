import GraphQL.Execution.Complete
import GraphQL.Proofs.Execution.Progress

/-!
Execution told by rules: how the objects, fields and values of a response are done, without tasks.

Each rule stands for one way in which a part of the response can go, with the completion that it
comes to and the events on the way. What the tasks of the parts end with follows the rules
(`Does.of_selectionSet`), so a property of executions is proved by induction on the rules.
-/

set_option autoImplicit false

namespace GraphQL

open Json

namespace TypeRef

/-- Values of the type are serialized, not selected from. -/
def IsLeaf (schema : Schema) : TypeRef → Prop
  | named name => ∃ d, schema.type? name = some d ∧ d.isLeaf = true
  | list _ => False
  | nonNull _ => False
  | _ => True

/-- How a field of the type ends after an error of its own. -/
def givenUp (type : TypeRef) : Execution.Completion :=
  if type.isNonNull then .propagate else .value .null

end TypeRef

namespace Execution

namespace FieldSite

/-- The site of fields with the same response key. -/
def ofFields (type : ObjectType) (f : Field Literal) (fields : List (Field Literal)) : FieldSite :=
  ⟨type.name, f.head, (f :: fields).flatMap (·.selections)⟩

def undefinedError (site : FieldSite) (path : Path) : Error :=
  site.codedError ("Cannot query field \"" ++ site.first.name ++ "\" on type \"" ++
    site.parentType ++ "\".") "INVALID_FIELD" path

def timeoutError (site : FieldSite) (path : Path) : Error :=
  site.codedError ("Timed out before resolving field \"" ++ site.first.name ++ "\".") "TIMEOUT" path

def nullError (site : FieldSite) (path : Path) : Error :=
  site.error ("Cannot return null for non-nullable field " ++ site.qualifiedName ++ ".") path

def leafError (site : FieldSite) (type : TypeRef) (e : InvalidValue) (path : Path) : Error :=
  site.error ("Cannot serialize value for type \"" ++ type.render ++ "\": " ++ e.message) path

def listError (site : FieldSite) (item : TypeRef) (path : Path) : Error :=
  site.error ("Expected a list for field of type \"" ++ (TypeRef.list item).render ++ "\".") path

def abstractError (site : FieldSite) (name : String) (path : Path) : Error :=
  site.error ("Abstract type \"" ++ name ++
    "\" must resolve to an object type at runtime for field \"" ++ site.qualifiedName ++ "\".") path

def unknownTypeError (site : FieldSite) (name : String) (path : Path) : Error :=
  site.error (SpecError.unknownType name).message path

end FieldSite

/-- The error of a selection set that is nested too deep. -/
def depthError (path : Path) : Error :=
  ⟨SpecError.recursionLimitExceeded.message, [], some path,
    [("code", .string SpecError.recursionLimitExceeded.code)]⟩

/-- A part of the response that is to be done. -/
inductive Job where
  | object (type : ObjectType) (value : Value) (selections : List (Selection Literal)) (path : Path)
  /-- The fields with one response key. -/
  | field (type : ObjectType) (parent : Value) (fields : List (Field Literal)) (path : Path)
  /-- A field that is defined. -/
  | defined (site : FieldSite) (d : FieldDefinition) (parent : Value) (path : Path)
  | resolved (site : FieldSite) (type : TypeRef) (result : Except FieldError Value) (path : Path)
  | item (site : FieldSite) (type : TypeRef) (value : Value) (path : Path)
  /-- A value at a position that refuses null or takes it. -/
  | position (site : FieldSite) (refusesNull : Bool) (type : TypeRef) (value : Value) (path : Path)
  /-- A value before it is known whether its position takes null. -/
  | value (site : FieldSite) (type : TypeRef) (value : Value) (path : Path)

/-- A job may be done in a world with a completion and after some events. The number tells how many
levels of selection sets may still be entered. -/
inductive Does (s : Setting) (w : World) : Nat → Job → Completion → List Event → Prop where
  | tooDeep (type : ObjectType) (value : Value) (selections : List (Selection Literal))
      (path : Path) :
      Does s w 0 (.object type value selections path) .propagate [.failed (depthError path)]
  | object {room : Nat} {type : ObjectType} {value : Value}
      {selections : List (Selection Literal)} {path : Path} {context : Context}
      {collected : Collected} {outs : List (Completion × List Event)} {merged : List Event} :
      w.sees context → s.collect ⟨type.name, path, context⟩ selections = collected →
      collected.groups.length = outs.length →
      (∀ (i : Nat) key fields d ds, collected.groups[i]? = some (key, fields) →
        outs[i]? = some (d, ds) →
        Does s w room (.field type value fields (path.join (.key key))) d ds) →
      Interleaving (outs.map Prod.snd) merged →
      Does s w (room + 1) (.object type value selections path)
        (.object (Entries.keys collected.groups) (outs.map Prod.fst))
        (collected.errors.map .collecting ++ merged)
  | unselected {room : Nat} (type : ObjectType) (parent : Value) (path : Path) :
      Does s w room (.field type parent [] path) (.value .null) []
  | typename {room : Nat} {type : ObjectType} {f : Field Literal} (parent : Value)
      (fields : List (Field Literal)) (path : Path) : f.head.name = "__typename" →
      Does s w room (.field type parent (f :: fields) path) (.value (.string type.name)) []
  | undefined {room : Nat} {type : ObjectType} {f : Field Literal} (parent : Value)
      (fields : List (Field Literal)) (path : Path) : f.head.name ≠ "__typename" →
      Entries.get? f.head.name type.fields = none →
      Does s w room (.field type parent (f :: fields) path) (.value .null)
        [.reached path none, .failed ((FieldSite.ofFields type f fields).undefinedError path)]
  | field {room : Nat} {type : ObjectType} {f : Field Literal} {d : FieldDefinition}
      {parent : Value} {fields : List (Field Literal)} {path : Path} {c : Completion}
      {es : List Event} : f.head.name ≠ "__typename" →
      Entries.get? f.head.name type.fields = some d →
      Does s w room (.defined (.ofFields type f fields) d parent path) c es →
      Does s w room (.field type parent (f :: fields) path) c (.reached path (some d.type) :: es)
  | invalidArgument {room : Nat} {site : FieldSite} {d : FieldDefinition} {e : ArgumentError}
      (parent : Value) (path : Path) :
      d.coerceArguments s.schema s.bindings site.first.arguments = .error e →
      Does s w room (.defined site d parent path) d.type.givenUp
        [.failed (site.codedError e.message "INVALID_ARGUMENT" path) e.isEndless]
  | unresolved {room : Nat} {site : FieldSite} {d : FieldDefinition} {arguments : Entries Value}
      {parent : Value} {path : Path} {c : Completion} {es : List Event} :
      d.coerceArguments s.schema s.bindings site.first.arguments = .ok arguments →
      d.resolver = none →
      Does s w room (.resolved site d.type (.ok (defaultResolve parent site.first.name)) path) c
        es →
      Does s w room (.defined site d parent path) c es
  | skipped {room : Nat} {site : FieldSite} {d : FieldDefinition} {arguments : Entries Value}
      {resolver : Resolver} (parent : Value) (path : Path) :
      d.coerceArguments s.schema s.bindings site.first.arguments = .ok arguments →
      d.resolver = some resolver → w.refuses .skipped →
      Does s w room (.defined site d parent path) d.type.givenUp []
  | timedOut {room : Nat} {site : FieldSite} {d : FieldDefinition} {arguments : Entries Value}
      {resolver : Resolver} (parent : Value) (path : Path) :
      d.coerceArguments s.schema s.bindings site.first.arguments = .ok arguments →
      d.resolver = some resolver → w.refuses .timedOut →
      Does s w room (.defined site d parent path) d.type.givenUp
        [.failed (site.timeoutError path)]
  | called {room : Nat} {site : FieldSite} {d : FieldDefinition} {arguments : Entries Value}
      {resolver : Resolver} {i : Invocation} {r : Resolution} {parent : Value} {path : Path}
      {c : Completion} {es : List Event} :
      d.coerceArguments s.schema s.bindings site.first.arguments = .ok arguments →
      d.resolver = some resolver →
      i = ⟨parent, arguments, path, site.first.name, site.parentType⟩ → w.admits →
      w.answers ⟨resolver, i⟩ r →
      Does s w room (.resolved site d.type (r.toExcept i) path) c es →
      Does s w room (.defined site d parent path) c (.invoked i :: es)
  | failed {room : Nat} {site : FieldSite} {result : Except FieldError Value}
      {context : Context} {e : FieldError} (type : TypeRef) (path : Path) : w.sees context →
      result.bind (s.directives.transform s.bindings context site.first.directives) = .error e →
      Does s w room (.resolved site type result path) type.givenUp
        [.failed (e.locate site.first.location path)]
  | produced {room : Nat} {site : FieldSite} {result : Except FieldError Value}
      {context : Context} {value : Value} {type : TypeRef} {path : Path} {c : Completion}
      {es : List Event} : w.sees context →
      result.bind (s.directives.transform s.bindings context site.first.directives) = .ok value →
      Does s w room (.position site false type value path) c es →
      Does s w room (.resolved site type result path) c (.produced path value :: es)
  | item {room : Nat} {site : FieldSite} {type : TypeRef} {value : Value} {path : Path}
      {c : Completion} {es : List Event} :
      Does s w room (.position site false type value path) c es →
      Does s w room (.item site type value path) c
        (.reached path (some type) :: .produced path value :: es)
  | marked {room : Nat} {site : FieldSite} {type : TypeRef} {value : Value} {path : Path}
      {c : Completion} {es : List Event} :
      Does s w room (.position site true type value path) c es →
      Does s w room (.position site false (.nonNull type) value path) c es
  | absorbed {room : Nat} {site : FieldSite} {type : TypeRef} {value : Value} {path : Path}
      {c : Completion} {es : List Event} : type.isNonNull = false →
      Does s w room (.value site type value path) c es →
      Does s w room (.position site false type value path) c.absorb es
  | refused {room : Nat} {site : FieldSite} {type : TypeRef} {value : Value} {path : Path}
      {c : Completion} {es : List Event} : c.isNull = true →
      Does s w room (.value site type value path) c es →
      Does s w room (.position site true type value path) .propagate
        (es ++ [.failed (site.nullError path)])
  | kept {room : Nat} {site : FieldSite} {type : TypeRef} {value : Value} {path : Path}
      {c : Completion} {es : List Event} : c.isNull = false →
      Does s w room (.value site type value path) c es →
      Does s w room (.position site true type value path) c es
  | null {room : Nat} (site : FieldSite) (type : TypeRef) (path : Path) :
      Does s w room (.value site type .null path) (.value .null) []
  | unmarked {room : Nat} {site : FieldSite} {type : TypeRef} {value : Value} {path : Path}
      {c : Completion} {es : List Event} : value.isNull = false →
      Does s w room (.position site false type value path) c es →
      Does s w room (.value site (.nonNull type) value path) c es
  | array {room : Nat} {site : FieldSite} {type : TypeRef} {items : List Value} {path : Path}
      {outs : List (Completion × List Event)} {merged : List Event} :
      items.length = outs.length →
      (∀ (i : Nat) item d ds, items[i]? = some item → outs[i]? = some (d, ds) →
        Does s w room (.item site type item (path.join (.index i))) d ds) →
      Interleaving (outs.map Prod.snd) merged →
      Does s w room (.value site (.list type) (.array items) path)
        (.array (outs.map Prod.fst)) merged
  | notArray {room : Nat} {value : Value} (site : FieldSite) (type : TypeRef) (path : Path) :
      value.isNull = false → (∀ items, value ≠ .array items) →
      Does s w room (.value site (.list type) value path) .propagate
        [.failed (site.listError type path)]
  | leaf {room : Nat} {type : TypeRef} {value v : Value} (site : FieldSite) (path : Path) :
      value.isNull = false → type.IsLeaf s.schema → type.coerceOutput s.schema value = .ok v →
      Does s w room (.value site type value path) (.value v) []
  | invalidLeaf {room : Nat} {type : TypeRef} {value : Value} {e : InvalidValue}
      (site : FieldSite) (path : Path) : value.isNull = false → type.IsLeaf s.schema →
      type.coerceOutput s.schema value = .error e →
      Does s w room (.value site type value path) .propagate
        [.failed (site.leafError type e path)]
  | ofObject {room : Nat} {site : FieldSite} {name : String} {type : ObjectType} {value : Value}
      {path : Path} {c : Completion} {es : List Event} : value.isNull = false →
      s.schema.type? name = some (.object type) →
      Does s w room (.object type value site.selections path) c es →
      Does s w room (.value site (.named name) value path) c es
  | ofAbstract {room : Nat} {site : FieldSite} {name : String} {d : TypeDefinition}
      {type : ObjectType} {value : Value} {path : Path} {c : Completion} {es : List Event} :
      value.isNull = false → s.schema.type? name = some d → d.isAbstract = true →
      s.schema.concreteType? name value = some type →
      Does s w room (.object type value site.selections path) c es →
      Does s w room (.value site (.named name) value path) c es
  | noConcrete {room : Nat} {name : String} {d : TypeDefinition} {value : Value}
      (site : FieldSite) (path : Path) : value.isNull = false → s.schema.type? name = some d →
      d.isAbstract = true → s.schema.concreteType? name value = none →
      Does s w room (.value site (.named name) value path) .propagate
        [.failed (site.abstractError name path)]
  | unknownType {room : Nat} {name : String} {value : Value} (site : FieldSite) (path : Path) :
      value.isNull = false →
      (∀ d, s.schema.type? name = some d → ∃ type, d = .input type) →
      Does s w room (.value site (.named name) value path) .propagate
        [.failed (site.unknownTypeError name path)]

/-- A position refuses a null or takes it, as its site settles it. -/
theorem FieldSite.ends_settle {w : World} {site : FieldSite} {refusesNull : Bool} {path : Path}
    {t : Task} {c : Completion} {es : List Event}
    (h : Ends w (site.settle refusesNull path t) c es) :
    ∃ d ds, Ends w t d ds ∧
      (refusesNull = false ∧ c = d.absorb ∧ es = ds ∨
        refusesNull = true ∧ d.isNull = true ∧ c = .propagate ∧
          es = ds ++ [.failed (site.nullError path)] ∨
        refusesNull = true ∧ d.isNull = false ∧ c = d ∧ es = ds) := by
  obtain ⟨d, front, back, ht, hb, rfl⟩ := h.of_bind
  refine ⟨d, front, ht, ?_⟩
  split at hb
  · next hr =>
    split at hb
    · next hd =>
      obtain ⟨rest, rfl, hrest⟩ := hb.of_emit
      obtain ⟨rfl, rfl⟩ := hrest.of_done
      exact .inr (.inl ⟨hr, hd, rfl, rfl⟩)
    · next hd =>
      obtain ⟨rfl, rfl⟩ := hb.of_done
      exact .inr (.inr ⟨hr, by simpa using hd, rfl, by simp⟩)
  · next hr =>
    obtain ⟨rfl, rfl⟩ := hb.of_done
    exact .inl ⟨by simpa using hr, rfl, by simp⟩

theorem FieldSite.ends_fail {w : World} {site : FieldSite} {message : String} {path : Path}
    {c : Completion} {es : List Event} (h : Ends w (site.fail message path) c es) :
    c = .propagate ∧ es = [.failed (site.error message path)] := by
  obtain ⟨rest, rfl, hrest⟩ := h.of_emit
  obtain ⟨rfl, rfl⟩ := hrest.of_done
  exact ⟨rfl, rfl⟩

namespace Does

variable {s : Setting} {w : World} {room : Nat} {object : ObjectTask} {c : Completion}
  {es : List Event}

theorem of_settle {site : FieldSite} {refusesNull : Bool} {type : TypeRef} {value : Value}
    {path : Path} {t : Task} (hn : refusesNull = false → type.isNonNull = false)
    (ht : ∀ {d ds}, Ends w t d ds → Does s w room (.value site type value path) d ds)
    (h : Ends w (site.settle refusesNull path t) c es) :
    Does s w room (.position site refusesNull type value path) c es := by
  obtain ⟨d, ds, hd, ⟨rfl, rfl, rfl⟩ | ⟨rfl, hnull, rfl, rfl⟩ | ⟨rfl, hnull, rfl, rfl⟩⟩ :=
    FieldSite.ends_settle h
  · exact .absorbed (hn rfl) (ht hd)
  · exact .refused hnull (ht hd)
  · exact .kept hnull (ht hd)

theorem of_completeLeaf {site : FieldSite} {type : TypeRef} {value : Value} {path : Path}
    (hv : value.isNull = false) (hl : type.IsLeaf s.schema)
    (h : Ends w (s.completeLeaf site type value path) c es) :
    Does s w room (.value site type value path) c es := by
  unfold Setting.completeLeaf at h
  split at h
  · next v hc =>
    obtain ⟨rfl, rfl⟩ := h.of_done
    exact .leaf site path hv hl hc
  · next e hc =>
    obtain ⟨rfl, rfl⟩ := FieldSite.ends_fail h
    exact .invalidLeaf site path hv hl hc

theorem of_unlessNull {site : FieldSite} {type : TypeRef} {value : Value} {path : Path} {t : Task}
    {c : Completion} {es : List Event}
    (ht : value.isNull = false → Ends w t c es → Does s w room (.value site type value path) c es)
    (h : Ends w (if value.isNull then .done (.value .null) else t) c es) :
    Does s w room (.value site type value path) c es := by
  split at h
  · next hv =>
    obtain ⟨rfl, rfl⟩ := h.of_done
    cases value with
    | null => exact .null site type path
    | _ => cases hv
  · next hv => exact ht (by simpa using hv) h

theorem of_items {site : FieldSite} {type : TypeRef} {items : List Value} {path : Path}
    (hitem : ∀ {value path c es}, Ends w (s.complete object site false type value path) c es →
      Does s w room (.position site false type value path) c es)
    (hk : s.nested.Faithful) (h : Ends w (.fork s.nested
      (items.mapIdx fun i item =>
        .emit (.reached (path.join (.index i)) (some type)) <|
        .emit (.produced (path.join (.index i)) item) <|
          s.complete object site false type item (path.join (.index i)))
      fun cs => .done (.array cs)) c es) :
    Does s w room (.value site (.list type) (.array items) path) c es := by
  obtain ⟨outs, merged, rest, hl, ho, hm, hn, rfl⟩ := h.of_fork
  obtain ⟨rfl, rfl⟩ := hn.of_done
  rw [hk.keep_eq, List.append_nil]
  refine .array (by simpa using hl) (fun i item d ds hi hd => ?_) hm
  obtain ⟨_, rfl, h₁⟩ := (ho i _ d ds (by rw [List.getElem?_mapIdx, hi]; rfl) hd).of_emit
  obtain ⟨rest, rfl, h₂⟩ := h₁.of_emit
  exact .item (hitem h₂)

section

variable (hobject : ∀ {type value selections path c es},
  Ends w (object type value selections path) c es →
    Does s w room (.object type value selections path) c es)

include hobject

theorem of_abstract {site : FieldSite} {name : String} {d : TypeDefinition} {value : Value}
    {path : Path} (hv : value.isNull = false) (hd : s.schema.type? name = some d)
    (ha : d.isAbstract = true)
    (h : Ends w (Setting.completeNamed.abstract s object site name value path) c es) :
    Does s w room (.value site (.named name) value path) c es := by
  unfold Setting.completeNamed.abstract at h
  split at h
  · next type hc => exact .ofAbstract hv hd ha hc (hobject h)
  · next hc =>
    obtain ⟨rfl, rfl⟩ := FieldSite.ends_fail h
    exact .noConcrete site path hv hd ha hc

theorem of_completeNamed {site : FieldSite} {name : String} {value : Value} {path : Path}
    (hv : value.isNull = false)
    (h : Ends w (s.completeNamed object site name value path) c es) :
    Does s w room (.value site (.named name) value path) c es := by
  unfold Setting.completeNamed at h
  split at h
  · next _ hd => exact of_completeLeaf hv ⟨_, hd, rfl⟩ h
  · next _ hd => exact of_completeLeaf hv ⟨_, hd, rfl⟩ h
  · next type hd => exact .ofObject hv hd (hobject h)
  · next _ hd => exact of_abstract hobject hv hd rfl h
  · next _ hd => exact of_abstract hobject hv hd rfl h
  · next h₁ h₂ h₃ h₄ h₅ =>
    obtain ⟨rfl, rfl⟩ := FieldSite.ends_fail h
    refine .unknownType site path hv fun d hd => ?_
    cases d with
    | input type => exact ⟨type, rfl⟩
    | scalar n => exact absurd hd (h₁ n)
    | enum type => exact absurd hd (h₂ type)
    | object type => exact absurd hd (h₃ type)
    | interface type => exact absurd hd (h₄ type)
    | union type => exact absurd hd (h₅ type)

theorem of_complete (hk : s.nested.Faithful) {site : FieldSite} :
    ∀ (type : TypeRef) {refusesNull : Bool} {value : Value} {path : Path} {c : Completion}
      {es : List Event}, Ends w (s.complete object site refusesNull type value path) c es →
        Does s w room (.position site refusesNull type value path) c es := by
  have hleaf : ∀ {type : TypeRef} {refusesNull : Bool} {value : Value} {path : Path}
      {c : Completion} {es : List Event}, type.isNonNull = false → type.IsLeaf s.schema →
      Ends w (site.settle refusesNull path
        (if value.isNull then .done (.value .null) else s.completeLeaf site type value path)) c
        es → Does s w room (.position site refusesNull type value path) c es := by
    intro type refusesNull value path c es hn hl h
    exact of_settle (fun _ => hn) (of_unlessNull fun hv => of_completeLeaf hv hl) h
  intro type
  induction type with
  | nonNull inner ih =>
    intro refusesNull value path c es h
    cases refusesNull with
    | false =>
      rw [Setting.complete] at h
      exact .marked (ih h)
    | true =>
      rw [Setting.complete] at h
      exact of_settle nofun (of_unlessNull fun hv hd => .unmarked hv (ih hd)) h
  | list inner ih =>
    intro refusesNull value path c es h
    cases value with
    | null =>
      rw [Setting.complete] at h
      refine of_settle (fun _ => rfl) (fun hd => ?_) h
      obtain ⟨rfl, rfl⟩ := hd.of_done
      exact .null site _ path
    | array items =>
      rw [Setting.complete] at h
      exact of_settle (fun _ => rfl) (of_items ih hk) h
    | _ =>
      rw [Setting.complete] at h
      · refine of_settle (fun _ => rfl) (fun hd => ?_) h
        obtain ⟨rfl, rfl⟩ := FieldSite.ends_fail hd
        exact .notArray site inner path rfl nofun
      all_goals nofun
  | named name =>
    intro refusesNull value path c es h
    rw [Setting.complete] at h
    exact of_settle (fun _ => rfl)
      (of_unlessNull fun hv hd => of_completeNamed hobject hv hd) h
  | string | int | float | id | boolean =>
    intro refusesNull value path c es h
    rw [Setting.complete] at h
    · exact hleaf rfl trivial h
    all_goals nofun

theorem of_afterResolution (hk : s.nested.Faithful) {site : FieldSite} {type : TypeRef}
    {path : Path} {result : Except FieldError Value}
    (h : Ends w (s.afterResolution object site type (.done type.givenUp) path result) c es) :
    Does s w room (.resolved site type result path) c es := by
  obtain ⟨context, hc, h⟩ := h.of_read
  split at h
  · next value hv =>
    obtain ⟨_, rfl, hrest⟩ := h.of_emit
    exact .produced hc hv (of_complete hobject hk type hrest)
  · next e he =>
    obtain ⟨_, rfl, hrest⟩ := h.of_emit
    obtain ⟨rfl, rfl⟩ := hrest.of_done
    exact .failed type path hc he

theorem of_resolveField (hk : s.nested.Faithful) {site : FieldSite} {d : FieldDefinition}
    {parent : Value} {path : Path} (h : Ends w (s.resolveField object site d parent path) c es) :
    Does s w room (.defined site d parent path) c es := by
  unfold Setting.resolveField at h
  have hgiveUp : Task.done (if d.type.isNonNull then .propagate else .value .null) =
    .done d.type.givenUp := rfl
  simp only [hgiveUp] at h
  split at h
  · next e he =>
    obtain ⟨_, rfl, hrest⟩ := h.of_emit
    obtain ⟨rfl, rfl⟩ := hrest.of_done
    exact .invalidArgument parent path he
  · next arguments ha =>
    split at h
    · next hr => exact .unresolved ha hr (of_afterResolution hobject hk h)
    · next resolver hr =>
      obtain ⟨r, hrefused, hnext⟩ | ⟨r, rest, hadmits, hanswers, rfl, hnext⟩ := h.of_call trivial
      · cases r with
        | resolved r => exact absurd hrefused (w.not_refuses_resolved r)
        | skipped =>
          obtain ⟨rfl, rfl⟩ := hnext.of_done
          exact .skipped parent path ha hr hrefused
        | timedOut =>
          obtain ⟨_, rfl, hrest⟩ := hnext.of_emit
          obtain ⟨rfl, rfl⟩ := hrest.of_done
          exact .timedOut parent path ha hr hrefused
      · exact .called ha hr rfl hadmits hanswers (of_afterResolution hobject hk hnext)

theorem of_field (hk : s.nested.Faithful) {type : ObjectType} {parent : Value}
    {fields : List (Field Literal)} {path : Path}
    (h : Ends w (s.field object type parent fields path) c es) :
    Does s w room (.field type parent fields path) c es := by
  unfold Setting.field at h
  split at h
  · obtain ⟨rfl, rfl⟩ := h.of_done
    exact .unselected type parent path
  · next f fields =>
    split at h
    · next hname =>
      obtain ⟨rfl, rfl⟩ := h.of_done
      exact .typename parent fields path hname
    · next hname =>
      split at h
      · next hd =>
        obtain ⟨_, rfl, hfailed⟩ := h.of_emit
        obtain ⟨_, rfl, hrest⟩ := hfailed.of_emit
        obtain ⟨rfl, rfl⟩ := hrest.of_done
        exact .undefined parent fields path hname hd
      · next d hd =>
        obtain ⟨_, rfl, hrest⟩ := h.of_emit
        exact .field hname hd (of_resolveField hobject hk hrest)

end

theorem of_selectionSet (hk : s.nested.Faithful) : ∀ {room : Nat} {strategy : Strategy},
    strategy.Faithful → ∀ {type : ObjectType} {value : Value}
      {selections : List (Selection Literal)} {path : Path} {c : Completion} {es : List Event},
      Ends w (s.selectionSet room strategy type value selections path) c es →
        Does s w room (.object type value selections path) c es
  | 0, strategy, _, type, value, selections, path, c, es, h => by
    obtain ⟨_, rfl, hrest⟩ := h.of_emit
    obtain ⟨rfl, rfl⟩ := hrest.of_done
    exact .tooDeep type value selections path
  | room + 1, strategy, hs, type, value, selections, path, c, es, h => by
    obtain ⟨context, hc, hcollect⟩ := h.of_read
    obtain ⟨_, rfl, hfork⟩ := hcollect.of_emitAll
    obtain ⟨outs, merged, rest, hl, ho, hm, hn, rfl⟩ := hfork.of_fork
    obtain ⟨rfl, rfl⟩ := hn.of_done
    rw [hs.keep_eq, List.append_nil]
    refine .object hc rfl (by simpa using hl) (fun i key fields d ds hi hd => ?_) hm
    exact of_field (fun h => of_selectionSet hk hk h) hk
      (ho i _ d ds (by rw [List.getElem?_map, hi]; rfl) hd)

end Does

end Execution

end GraphQL
