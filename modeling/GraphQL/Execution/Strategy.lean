import GraphQL.Json.Value

/-!
How sibling fields and list items are scheduled.
-/

set_option autoImplicit false

namespace GraphQL.Execution

/-- How a position of the response ends: with its value, or with a null that must not stand there
and goes up to the nearest position that may be null. -/
inductive Completion where
  | value (v : Json.Value)
  | propagate
  deriving Repr

namespace Completion

def isNull : Completion → Bool
  | value v => v.isNull
  | propagate => false

/-- The data of a response that ends so: a null that goes up from the root is its data. -/
def data : Completion → Json.Value
  | value v => v
  | propagate => .null

/-- A position that may be null takes the propagated null. -/
def absorb : Completion → Completion
  | value v => value v
  | propagate => value .null

end Completion

/-- Which siblings may run before all earlier ones have ended. -/
inductive Order where
  /-- From the first to the last, one at a time. -/
  | forward
  /-- From the last to the first, one at a time. -/
  | backward
  /-- From the first to the last; at most `limit` siblings run, counted from the first that has not
  ended. -/
  | window (limit : Nat)
  deriving DecidableEq, Repr

/-- A strategy hands the completions back in the order of the siblings; it may keep some back. -/
structure Strategy where
  name : String
  order : Order
  keep : List Completion → List Completion

namespace Strategy

/-- Every sibling ends before the next begins. -/
def serial : Strategy := ⟨"serial", .forward, id⟩

/-- At most `limit` siblings run at a time, and at least one. -/
def concurrent (limit : Nat) : Strategy := ⟨"concurrent", .window (max limit 1), id⟩

/-- Every sibling ends before the one in front of it begins. -/
def reverse : Strategy := ⟨"reverse", .backward, id⟩

/-- As `reverse`, but the completion of the last sibling is kept back. -/
def dropLast : Strategy := ⟨"drop_last", .backward, List.dropLast⟩

end Strategy

end GraphQL.Execution
