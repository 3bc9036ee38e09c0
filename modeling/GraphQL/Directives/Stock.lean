import GraphQL.Directives
import GraphQL.Text.UpperCase

/-!
Stock directive handlers.
-/

set_option autoImplicit false

namespace GraphQL

open Json

namespace DirectiveHandler

/-- A handler that only decides whether a node takes part. -/
def deciding (includes : Entries Value → Context → Except FieldError Bool) : DirectiveHandler :=
  { neutral with includes }

/-- A handler that only changes values. -/
def changing (change : Entries Value → Value → Value) : DirectiveHandler :=
  { neutral with transform := fun arguments v _ => .ok (change arguments v) }

/-- A handler that only changes strings. -/
def changingText (change : Entries Value → String → String) : DirectiveHandler :=
  changing fun arguments v =>
    match v with
    | .string s => .string (change arguments s)
    | v => v

def textArgument? (name : String) (arguments : Entries Value) : Option String :=
  (Entries.get? name arguments).bind Value.string?

def hidden : DirectiveHandler := deciding fun _ _ => .ok false

def refusing (e : FieldError) : DirectiveHandler := deciding fun _ _ => .error e

/-- A node takes part if the entry of the context that the argument `key` names is true. -/
def flag : DirectiveHandler := deciding fun arguments c =>
  match c.get .bool ((textArgument? "key" arguments).getD "flag") with
  | .ok b => .ok (b.getD false)
  | .error e => .error (.ofMessage e)

def upper : DirectiveHandler := changingText fun _ s => Text.upperCase s

/-- Appends the argument `s`. -/
def append : DirectiveHandler := changingText fun arguments s =>
  s ++ (textArgument? "s" arguments).getD ""

/-- Null becomes the argument `value`. -/
def orDefault : DirectiveHandler := changing fun arguments v =>
  if v.isNull then (Entries.get? "value" arguments).getD .null else v

def nullify : DirectiveHandler := changing fun _ _ => .null

/-- A value becomes a list of itself alone. -/
def wrap : DirectiveHandler := changing fun _ v => .array [v]

/-- A value becomes the arguments of the directive. -/
def echo : DirectiveHandler := changing fun arguments _ => .object arguments

/-- A value becomes an entry of the context. -/
def entry (key : String) : DirectiveHandler :=
  { neutral with
    transform := fun _ _ c =>
      match c.get .json key with
      | .ok v => .ok (v.getD .null)
      | .error e => .error (.ofMessage e) }

def failing (e : FieldError) : DirectiveHandler :=
  { neutral with transform := fun _ _ _ => .error e }

end DirectiveHandler

end GraphQL
