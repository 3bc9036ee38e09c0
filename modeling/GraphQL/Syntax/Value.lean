/-!
Values as they are written: numbers keep their spelling, and a value that was left out together
with its colon is kept as `missing`.
-/

set_option autoImplicit false

namespace GraphQL.Syntax

inductive Value where
  | missing
  | variable (name : String)
  | int (text : String)
  | float (text : String)
  | string (contents : String)
  | boolean (b : Bool)
  | null
  | enum (name : String)
  | list (items : List Value)
  | object (fields : List (String × Value))
  deriving Repr, Inhabited

end GraphQL.Syntax
