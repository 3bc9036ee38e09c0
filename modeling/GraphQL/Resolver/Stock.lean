import GraphQL.Resolver

/-!
Stock resolvers: fixed answers, parts of the invocation, and entries of the context.
-/

set_option autoImplicit false

namespace GraphQL

open Json

namespace Resolver

/-- A resolver that leaves the context alone. -/
def plain (answer : Invocation → Except FieldError Value) : Resolver :=
  ⟨0, fun i c => (.ofExcept (answer i), c.entries)⟩

/-- A resolver that works on the context; what an operation on it fails with is the error. -/
def onContext (answer : Context → Except String Value × Context) : Resolver :=
  ⟨0, fun _ c =>
    let (result, c) := answer c
    (.ofExcept (result.mapError FieldError.ofMessage), c.entries)⟩

def constant (v : Value) : Resolver := plain fun _ => .ok v

def failing (e : FieldError) : Resolver := plain fun _ => .error e

/-- Panics; which task that happens in is left out of the report. -/
def panicking (message : String) : Resolver :=
  ⟨0, fun _ c => (.panicked ("task panicked with message " ++ Text.quoted message), c.entries)⟩

/-- Answers all arguments. -/
def arguments : Resolver := plain fun i => .ok (.object i.arguments)

/-- Answers an argument that is read as a value of a type. -/
def argument {α : Type} (codec : Codec α) (name : String) : Resolver := plain fun i => do
  (codec.encodeOption (← i.argument? codec name)).mapError FieldError.ofMessage

/-- Answers a property of the parent. -/
def property (key : String) : Resolver := plain fun i => .ok (defaultResolve i.parent key)

/-- Answers what it is told. -/
def invocation : Resolver := plain fun i =>
  .ok (.object [("field", .string i.field), ("type", .string i.parentType),
    ("path", .string i.path.render), ("arguments", .object i.arguments), ("parent", i.parent)])

/-- Answers an entry of the context. -/
def entry (key : String) : Resolver := onContext fun c =>
  ((c.get .json key).map (·.getD .null), c)

/-- Replaces an entry of the context and answers the old one. -/
def replaceEntry (key : String) (v : Value) : Resolver := onContext fun c =>
  let (old, c) := c.insert .json key v
  (old.map (·.getD .null), c)

/-- Adds one to an entry of the context, which counts from zero in 64 bits, and answers it. -/
def count (key : String) : Resolver := onContext fun c =>
  match c.upsert .int key (· + 1) 0 with
  | (.ok (), c) => ((c.get .int key).bind Codec.int.encodeOption, c)
  | (.error e, c) => (.error e, c)

/-- Answers as many numbered items as the argument `count` says. -/
def items : Resolver := plain fun i => do
  let count ← i.argument? .int "count"
  return .array ((List.range (count.getD 0).toNatClampNeg).map fun (n : Nat) =>
    Value.object [("index", .int n), ("odd", .bool (n % 2 = 1))])

/-- Greets whom the argument `name` names. -/
def greeting : Resolver := plain fun i => do
  let name ← i.argument? .string "name"
  return .string ("hello " ++ name.getD "")

/-- Answers what stands in a table under the JSON text of an argument. -/
def choose (key : String) (cases : Entries Value) : Resolver := plain fun i =>
  let text := ((Entries.get? key i.arguments).getD .null).render
  match Entries.get? text cases with
  | some v => .ok v
  | none => .error (.ofMessage ("no case " ++ text))

end Resolver

namespace TypeResolver

def constant (name : String) : TypeResolver := fun _ => some name

/-- The type is the string under a key of the value. -/
def property (key : String) : TypeResolver := fun v => (v.get? key).bind Value.string?

def unknown : TypeResolver := fun _ => none

end TypeResolver

end GraphQL
