/-!
Why a value does not fit a type.
-/

set_option autoImplicit false

namespace GraphQL

inductive InvalidValue where
  | null
  | notA (type : String)
  | unknownField (field type : String)
  | missingField (field type : String)
  | inItem (index : Nat) (inner : InvalidValue)
  | inField (field : String) (inner : InvalidValue)
  /-- A default of a field of an input object needs itself, so that coercion does not come back. -/
  | endlessDefault (type : String)
  deriving DecidableEq, Repr

namespace InvalidValue

def message : InvalidValue → String
  | null => "can't be null"
  | notA type => "is not a valid " ++ type
  | unknownField field type => "field '" ++ field ++ "' is not defined by type '" ++ type ++ "'"
  | missingField field type =>
    "field '" ++ field ++ "' of required type '" ++ type ++ "' was not provided"
  | inItem index inner => "at index " ++ toString index ++ ": " ++ inner.message
  | inField field inner => "in field '" ++ field ++ "': " ++ inner.message
  | endlessDefault type => "needs a default of type '" ++ type ++ "' that needs itself"

/-- Whether what was amiss, in whichever part of a value, is a default that needs itself. -/
def isEndless : InvalidValue → Bool
  | inItem _ inner => inner.isEndless
  | inField _ inner => inner.isEndless
  | endlessDefault _ => true
  | _ => false

end InvalidValue

/-- The answer that stands for a coercion which does not come back. -/
def Endless {α : Type} : Except InvalidValue α → Prop
  | .ok _ => False
  | .error e => e.isEndless = true

instance {α : Type} : DecidablePred (Endless (α := α))
  | .ok _ => .isFalse id
  | .error e => inferInstanceAs (Decidable (e.isEndless = true))

end GraphQL
