import GraphQL.Decimal.Layout
import GraphQL.Entries

/-!
JSON values with ordered objects, and the two equalities on them: one that looks up object
members by name, and one that also compares their order.
-/

set_option autoImplicit false

namespace GraphQL.Json

/-- Integers and doubles are told apart, also when they stand for the same number. -/
inductive Number where
  | int (i : Int)
  | double (x : Binary64)
  deriving DecidableEq, Repr

namespace Number

/-- An integer never equals a double; the two zero doubles are equal. -/
def equal : Number → Number → Bool
  | int i, int j => i == j
  | double x, double y => x.equal y
  | _, _ => false

/-- The nearest double. -/
def toDouble : Number → Binary64
  | int i => .ofInt i
  | double x => x

def render : Number → String
  | int i => toString i
  | double x => x.render

/-- The integer that the number is, written as one or not. -/
def toInt? : Number → Option Int
  | int i => some i
  | double x => x.toInt?

end Number

inductive Value where
  | null
  | bool (b : Bool)
  | number (n : Number)
  | string (s : String)
  | array (items : List Value)
  | object (members : List (String × Value))
  deriving Repr, Inhabited

namespace Value

def int (i : Int) : Value := number (.int i)

def strings (names : List String) : Value := array (names.map string)

def isNull : Value → Bool
  | null => true
  | _ => false

def get? (key : String) : Value → Option Value
  | object members => Entries.get? key members
  | _ => none

def string? : Value → Option String
  | string s => some s
  | _ => none

def number? : Value → Option Number
  | number n => some n
  | _ => none

/-- The members of an object; any other value counts as an empty one. -/
def members : Value → Entries Value
  | object members => members
  | _ => []

/-- The integer below 2³¹ in size that the value is: an integer, or a double without fraction. -/
def int32? : Value → Option Int
  | number n => n.toInt?.filter fun i => -0x80000000 ≤ i ∧ i < 0x80000000
  | _ => none

/-- Whether the value is a number whose nearest double is finite. -/
def isFiniteNumber : Value → Bool
  | number n => n.toDouble.isFinite
  | _ => false

mutual

/-- Equality that does not look at the order of object members. -/
def equal : Value → Value → Bool
  | null, null => true
  | bool a, bool b => a == b
  | number m, number n => m.equal n
  | string s, string t => s == t
  | array xs, array ys => equalItems xs ys
  | object xs, object ys => xs.length == ys.length && equalMembers xs ys
  | _, _ => false

def equalItems : List Value → List Value → Bool
  | [], [] => true
  | x :: xs, y :: ys => x.equal y && equalItems xs ys
  | _, _ => false

/-- Whether each member on the left has an equal one of its name on the right. -/
def equalMembers : List (String × Value) → List (String × Value) → Bool
  | [], _ => true
  | (key, x) :: xs, ys =>
    (match Entries.get? key ys with
      | some y => x.equal y
      | none => false) && equalMembers xs ys

end

mutual

/-- Equality that also asks for the same order of members in objects at every depth. -/
def equalOrdered : Value → Value → Bool
  | null, null => true
  | bool a, bool b => a == b
  | number m, number n => m.equal n
  | string s, string t => s == t
  | array xs, array ys => xs.length == ys.length && equalOrderedItems xs ys
  | object xs, object ys => xs.length == ys.length && equalOrderedMembers xs ys
  | _, _ => false

/-- Compares as many items as both lists have. -/
def equalOrderedItems : List Value → List Value → Bool
  | x :: xs, y :: ys => x.equalOrdered y && equalOrderedItems xs ys
  | _, _ => true

def equalOrderedMembers : List (String × Value) → List (String × Value) → Bool
  | (k, x) :: xs, (l, y) :: ys => k == l && x.equalOrdered y && equalOrderedMembers xs ys
  | _, _ => true

end

instance : BEq Value := ⟨equal⟩

end Value

end GraphQL.Json
