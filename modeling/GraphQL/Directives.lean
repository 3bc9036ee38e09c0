import GraphQL.Literal
import GraphQL.Resolver

/-!
Directive handlers: whether an annotated node takes part in execution, and what becomes of the
value of an annotated field.
-/

set_option autoImplicit false

namespace GraphQL

open Json

def Directive.evaluateArguments (d : Directive Literal) (bindings : Entries Value) :
    Entries Value :=
  Argument.evaluateAll bindings d.arguments

/-- The behaviour of one directive, given its arguments and the context. -/
structure DirectiveHandler where
  includes : Entries Value → Context → Except FieldError Bool
  transform : Entries Value → Value → Context → Except FieldError Value

namespace DirectiveHandler

/-- A handler that changes nothing. -/
def neutral : DirectiveHandler := ⟨fun _ _ => .ok true, fun _ value _ => .ok value⟩

/-- The argument `if`, which must be a boolean. -/
def condition (directive : String) (arguments : Entries Value) : Except FieldError Bool :=
  match Entries.get? "if" arguments with
  | some (.bool b) => .ok b
  | _ => .error (.ofMessage ("directive @" ++ directive ++ " requires a Boolean 'if' argument"))

def skip : DirectiveHandler :=
  { neutral with includes := fun arguments _ => (condition "skip" arguments).map (!·) }

/-- The handler of `@include`. -/
def only : DirectiveHandler :=
  { neutral with includes := fun arguments _ => condition "include" arguments }

end DirectiveHandler

/-- The handlers of an executor under the names of their directives. Other directives mean
nothing. -/
structure DirectiveChain where
  handlers : Entries DirectiveHandler

namespace DirectiveChain

def empty : DirectiveChain := ⟨[]⟩

def register (chain : DirectiveChain) (name : String) (handler : DirectiveHandler) :
    DirectiveChain :=
  ⟨Entries.insert name handler chain.handlers⟩

def standard : DirectiveChain := (empty.register "skip" .skip).register "include" .only

def handler (chain : DirectiveChain) (d : Directive Literal) : DirectiveHandler :=
  (Entries.get? d.name chain.handlers).getD .neutral

/-- Whether a node with these directives takes part: they are asked in order, and the first that
says no or fails is the last to be asked. -/
def includes (chain : DirectiveChain) (bindings : Entries Value) (context : Context) :
    List (Directive Literal) → Except FieldError Bool
  | [] => .ok true
  | d :: directives =>
    match (chain.handler d).includes (d.evaluateArguments bindings) context with
    | .ok true => includes chain bindings context directives
    | answer => answer

/-- Passes the value of a field through all directives in order. -/
def transform (chain : DirectiveChain) (bindings : Entries Value) (context : Context) :
    List (Directive Literal) → Value → Except FieldError Value
  | [], value => .ok value
  | d :: directives, value =>
    match (chain.handler d).transform (d.evaluateArguments bindings) value context with
    | .ok value => transform chain bindings context directives value
    | .error e => .error e

end DirectiveChain

end GraphQL
