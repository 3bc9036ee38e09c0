import GraphQL.Coercion.Output
import GraphQL.Execution.Collect
import GraphQL.Execution.Task

/-!
The tasks of fields and values.

A value is completed against the declared type of its position. A position that may be null takes
a propagated null; a non-null position turns a null into an error and propagates it.
-/

set_option autoImplicit false

namespace GraphQL.Execution

open Json

namespace Completion

/-- The values of completions, unless one of them propagates. -/
def values? : List Completion → Option (List Value)
  | [] => some []
  | value v :: cs => (values? cs).map (v :: ·)
  | propagate :: _ => none

def array (cs : List Completion) : Completion :=
  match values? cs with
  | some vs => value (.array vs)
  | none => propagate

/-- The object with the given keys. Keys without a completion are left out. -/
def object (keys : List String) (cs : List Completion) : Completion :=
  match values? (cs.take keys.length) with
  | some vs => value (.object (Entries.ofList (keys.zip vs)))
  | none => propagate

end Completion

/-- Completes the object at a path, from its type, its value and the selections on it. -/
abbrev ObjectTask := ObjectType → Value → List (Selection Literal) → Path → Task

/-- What fields with the same response key have in common. -/
structure FieldSite where
  parentType : String
  /-- The first of the fields, which stands for all. -/
  first : FieldHead Literal
  /-- The selections of all of the fields. -/
  selections : List (Selection Literal)

namespace FieldSite

def error (site : FieldSite) (message : String) (path : Path) : Error :=
  ⟨message, site.first.location.toList, some path, []⟩

def codedError (site : FieldSite) (message code : String) (path : Path) : Error :=
  { site.error message path with extensions := [("code", .string code)] }

/-- An error that propagates a null. -/
def fail (site : FieldSite) (message : String) (path : Path) : Task :=
  .emit (.failed (site.error message path)) (.done .propagate)

def qualifiedName (site : FieldSite) : String := site.parentType ++ "." ++ site.first.name

/-- Ends a position that refuses null, or that takes it. -/
def settle (site : FieldSite) (refusesNull : Bool) (path : Path) : Task → Task :=
  Task.bind fun c =>
    if refusesNull then
      if c.isNull then
        site.fail ("Cannot return null for non-nullable field " ++ site.qualifiedName ++ ".") path
      else .done c
    else .done c.absorb

end FieldSite

namespace Setting

def completeLeaf (s : Setting) (site : FieldSite) (type : TypeRef) (value : Value) (path : Path) :
    Task :=
  match type.coerceOutput s.schema value with
  | .ok v => .done (.value v)
  | .error e =>
    site.fail ("Cannot serialize value for type \"" ++ type.render ++ "\": " ++ e.message) path

/-- Completes a value that is not null against a named type. -/
def completeNamed (s : Setting) (object : ObjectTask) (site : FieldSite) (name : String)
    (value : Value) (path : Path) : Task :=
  match s.schema.type? name with
  | some (.scalar _) => s.completeLeaf site (.named name) value path
  | some (.enum _) => s.completeLeaf site (.named name) value path
  | some (.object type) => object type value site.selections path
  | some (.interface _) => abstract
  | some (.union _) => abstract
  | _ => site.fail (SpecError.unknownType name).message path
where
  abstract : Task :=
    match s.schema.concreteType? name value with
    | some type => object type value site.selections path
    | none =>
      site.fail ("Abstract type \"" ++ name ++
        "\" must resolve to an object type at runtime for field \"" ++ site.qualifiedName ++
        "\".") path

/-- Completes a value at a position of a type, below as many non-null marks as there are. -/
def complete (s : Setting) (object : ObjectTask) (site : FieldSite) :
    (refusesNull : Bool) → TypeRef → Value → Path → Task
  | false, .nonNull inner, value, path => s.complete object site true inner value path
  | true, .nonNull inner, value, path =>
    site.settle true path <|
      if value.isNull then .done (.value .null)
      else s.complete object site false inner value path
  | refusesNull, .list inner, value, path =>
    site.settle refusesNull path <|
      match value with
      | .null => .done (.value .null)
      | .array items =>
        .fork s.nested
          (items.mapIdx fun i item =>
            .emit (.reached (path.join (.index i)) (some inner)) <|
            .emit (.produced (path.join (.index i)) item) <|
              s.complete object site false inner item (path.join (.index i)))
          fun cs => .done (.array cs)
      | _ =>
        site.fail ("Expected a list for field of type \"" ++ (TypeRef.list inner).render ++ "\".")
          path
  | refusesNull, .named name, value, path =>
    site.settle refusesNull path <|
      if value.isNull then .done (.value .null)
      else s.completeNamed object site name value path
  | refusesNull, type, value, path =>
    site.settle refusesNull path <|
      if value.isNull then .done (.value .null) else s.completeLeaf site type value path

/-- What becomes of a resolved value: the directives of the field transform it, and it is
completed. `giveUp` ends the field after an error. -/
def afterResolution (s : Setting) (object : ObjectTask) (site : FieldSite) (type : TypeRef)
    (giveUp : Task) (path : Path) (resolved : Except FieldError Value) : Task :=
  .read fun context =>
    match resolved.bind (s.directives.transform s.bindings context site.first.directives) with
    | .ok value => .emit (.produced path value) (s.complete object site false type value path)
    | .error e => .emit (.failed (e.locate site.first.location path)) giveUp

/-- The task of a defined field. -/
def resolveField (s : Setting) (object : ObjectTask) (site : FieldSite) (d : FieldDefinition)
    (parent : Value) (path : Path) : Task :=
  let giveUp : Task := .done (if d.type.isNonNull then .propagate else .value .null)
  match d.coerceArguments s.schema s.bindings site.first.arguments with
  | .error e =>
    .emit (.failed (site.codedError e.message "INVALID_ARGUMENT" path) e.isEndless) giveUp
  | .ok arguments =>
    match d.resolver with
    | none =>
      s.afterResolution object site d.type giveUp path
        (.ok (defaultResolve parent site.first.name))
    | some resolver =>
      let invocation : Invocation :=
        ⟨parent, arguments, path, site.first.name, site.parentType⟩
      .call ⟨resolver, invocation⟩ .fresh fun
        | .skipped => giveUp
        | .timedOut =>
          let message := "Timed out before resolving field \"" ++ site.first.name ++ "\"."
          .emit (.failed (site.codedError message "TIMEOUT" path)) giveUp
        | .resolved r =>
          s.afterResolution object site d.type giveUp path (r.toExcept invocation)

/-- The task of the fields with one response key. -/
def field (s : Setting) (object : ObjectTask) (type : ObjectType) (parent : Value)
    (fields : List (Field Literal)) (path : Path) : Task :=
  match fields with
  | [] => .done (.value .null)
  | f :: _ =>
    let site : FieldSite := ⟨type.name, f.head, fields.flatMap (·.selections)⟩
    if f.head.name = "__typename" then .done (.value (.string type.name))
    else
      match Entries.get? f.head.name type.fields with
      | none =>
        let message :=
          "Cannot query field \"" ++ f.head.name ++ "\" on type \"" ++ type.name ++ "\"."
        .emit (.reached path none) <|
        .emit (.failed (site.codedError message "INVALID_FIELD" path)) (.done (.value .null))
      | some d => .emit (.reached path (some d.type)) (s.resolveField object site d parent path)

/-- The task of a selection set under a strategy; `room` is how many levels of selection sets may
still be entered. -/
def selectionSet (s : Setting) : (room : Nat) → Strategy → ObjectTask
  | 0, _, _, _, _, path =>
    .emit (.failed ⟨SpecError.recursionLimitExceeded.message, [], some path,
      [("code", .string SpecError.recursionLimitExceeded.code)]⟩) (.done .propagate)
  | room + 1, strategy, type, parent, selections, path =>
    .read fun context =>
      let c := s.collect ⟨type.name, path, context⟩ selections
      Task.emitAll (c.errors.map .collecting) <|
        .fork strategy
          (c.groups.map fun (key, fields) =>
            s.field (s.selectionSet room s.nested) type parent fields (path.join (.key key)))
          fun cs => .done (.object (Entries.keys c.groups) cs)

/-- The task of an operation. -/
def root (s : Setting) (strategy : Strategy) (type : ObjectType) (value : Value)
    (selections : List (Selection Literal)) : Task :=
  s.selectionSet (s.recursionLimit + 1) strategy type value selections []

end Setting

end GraphQL.Execution
