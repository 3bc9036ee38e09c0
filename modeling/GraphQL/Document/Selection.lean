import GraphQL.Text.Location

/-!
Selections of a GraphQL document, over the type `V` of the values in them.
-/

set_option autoImplicit false

namespace GraphQL

structure Argument (V : Type) where
  name : String
  value : V
  deriving DecidableEq, Repr

structure Directive (V : Type) where
  name : String
  arguments : List (Argument V)
  location : Option Location
  deriving DecidableEq, Repr

/-- A field without its sub-selections. -/
structure FieldHead (V : Type) where
  alias? : Option String
  name : String
  arguments : List (Argument V)
  directives : List (Directive V)
  location : Option Location
  deriving DecidableEq, Repr

/-- The key under which the field appears in the response. -/
def FieldHead.responseKey {V : Type} (f : FieldHead V) : String := f.alias?.getD f.name

structure Spread (V : Type) where
  fragment : String
  directives : List (Directive V)
  location : Option Location
  deriving DecidableEq, Repr

/-- An inline fragment without its selections. Without a type condition it applies to every type. -/
structure InlineHead (V : Type) where
  condition : Option String
  directives : List (Directive V)
  location : Option Location
  deriving DecidableEq, Repr

inductive Selection (V : Type) where
  | field (head : FieldHead V) (selections : List (Selection V))
  | spread (spread : Spread V)
  | inline (head : InlineHead V) (selections : List (Selection V))
  deriving Repr

/-- A field with its sub-selections. -/
structure Field (V : Type) where
  head : FieldHead V
  selections : List (Selection V)
  deriving Repr

namespace Selection

variable {V : Type}

def directives : Selection V → List (Directive V)
  | field head _ => head.directives
  | spread s => s.directives
  | inline head _ => head.directives

mutual

/-- How many nodes a selection holds, itself included. -/
def size : Selection V → Nat
  | field _ selections => sizeAll selections + 1
  | spread _ => 1
  | inline _ selections => sizeAll selections + 1

def sizeAll : List (Selection V) → Nat
  | [] => 0
  | s :: rest => s.size + sizeAll rest

end

end Selection

/-! Changing the values. `f` is given a value's argument name, and its first error in document
order is the error of the whole. -/

section Traverse

variable {V W E : Type} (f : String → V → Except E W)

def Argument.traverse (a : Argument V) : Except E (Argument W) := do
  return ⟨a.name, ← f a.name a.value⟩

def Directive.traverse (d : Directive V) : Except E (Directive W) := do
  return ⟨d.name, ← d.arguments.mapM (·.traverse f), d.location⟩

def FieldHead.traverse (h : FieldHead V) : Except E (FieldHead W) := do
  let arguments ← h.arguments.mapM (·.traverse f)
  let directives ← h.directives.mapM (·.traverse f)
  return ⟨h.alias?, h.name, arguments, directives, h.location⟩

def Spread.traverse (s : Spread V) : Except E (Spread W) := do
  return ⟨s.fragment, ← s.directives.mapM (·.traverse f), s.location⟩

def InlineHead.traverse (h : InlineHead V) : Except E (InlineHead W) := do
  return ⟨h.condition, ← h.directives.mapM (·.traverse f), h.location⟩

mutual

def Selection.traverse : Selection V → Except E (Selection W)
  | .field head selections => do
    let head ← head.traverse f
    return .field head (← traverseAll selections)
  | .spread s => do return .spread (← s.traverse f)
  | .inline head selections => do
    let head ← head.traverse f
    return .inline head (← traverseAll selections)

def Selection.traverseAll : List (Selection V) → Except E (List (Selection W))
  | [] => .ok []
  | s :: rest => do
    let s ← s.traverse
    return s :: (← traverseAll rest)

end

end Traverse

end GraphQL
