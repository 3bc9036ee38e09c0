import GraphQL.Context
import GraphQL.Path

/-!
Resolvers: the functions that compute the values of fields.
-/

set_option autoImplicit false

namespace GraphQL

open Json

/-- An error that a resolver or a directive answers. The place in the response is added later. -/
structure FieldError where
  message : String
  extensions : Entries Value
  deriving Repr

namespace FieldError

def ofMessage (message : String) : FieldError := ⟨message, []⟩

def withExtension (key : String) (value : Value) (e : FieldError) : FieldError :=
  { e with extensions := Entries.insert key value e.extensions }

end FieldError

/-- What a resolver is told about the field. -/
structure Invocation where
  parent : Value
  /-- Coerced, defaults included. -/
  arguments : Entries Value
  path : Path
  field : String
  parentType : String
  deriving Repr

/-- An argument read as a value of a type. A null argument counts as absent. -/
def Invocation.argument? {α : Type} (i : Invocation) (codec : Codec α) (name : String) :
    Except FieldError (Option α) :=
  match Entries.get? name i.arguments with
  | none => .ok none
  | some .null => .ok none
  | some value =>
    match codec.decode value with
    | .ok a => .ok (some a)
    | .error e => .error (.ofMessage ("invalid argument '" ++ name ++ "': " ++ e))

/-- How a resolver ends. -/
inductive Resolution where
  | value (v : Value)
  | error (e : FieldError)
  /-- The report names the panic and the task in which it happened. -/
  | panicked (report : String)
  deriving Repr

namespace Resolution

def ofExcept : Except FieldError Value → Resolution
  | .ok v => value v
  | .error e => error e

/-- The value, or the error that the field gets; a resolver that panics fails only its own
field. -/
def toExcept (i : Invocation) : Resolution → Except FieldError Value
  | value v => .ok v
  | error e => .error e
  | panicked report =>
    .error (.ofMessage ("Resolver for field \"" ++ i.parentType ++ "." ++ i.field ++
      "\" failed: " ++ report))

end Resolution

/-- A resolver may read and change the entries of the context. -/
structure Resolver where
  /-- How often it lets others go ahead before it answers. -/
  pauses : Nat
  answer : Invocation → Context → Resolution × Entries Value

namespace Resolver

/-- A resolver that pauses so many more times. -/
def pausing (times : Nat) (resolver : Resolver) : Resolver :=
  { resolver with pauses := resolver.pauses + times }

/-- A resolver that runs apart from all others: it is waited for, and its panics become errors of
its own. -/
def blocking (resolver : Resolver) : Resolver where
  pauses := resolver.pauses + 1
  answer i c :=
    match resolver.answer i c with
    | (.panicked report, entries) =>
      (.error (.ofMessage ("resolver task failed: " ++ report)), entries)
    | answer => answer

end Resolver

/-- Finds the name of the object type of a value. -/
abbrev TypeResolver := Value → Option String

/-- Without a resolver a field is the property of its name. -/
def defaultResolve (parent : Value) (field : String) : Value := (parent.get? field).getD .null

end GraphQL
