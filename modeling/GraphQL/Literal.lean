import GraphQL.SpecError
import GraphQL.Syntax.Value
import GraphQL.Document.Selection

/-!
Literals of a document: what a written value denotes, before the variables in it are known.
-/

set_option autoImplicit false

namespace GraphQL

inductive Literal where
  | variable (name : String)
  | int (i : Int)
  | float (x : Binary64)
  | string (s : String)
  | boolean (b : Bool)
  | null
  | enum (name : String)
  | list (items : List Literal)
  /-- Fields stand in the order of the text and may repeat. -/
  | object (fields : List (String × Literal))
  deriving Repr, Inhabited

namespace Literal

def digits (cs : List Char) : Nat := cs.foldl (fun n c => n * 10 + (c.toNat - '0'.toNat)) 0

/-- The integer a lexeme spells, if it has 64 bits. -/
def int? (text : String) : Option Int :=
  let i : Int := match text.toList with
    | '-' :: cs => -(digits cs : Int)
    | cs => digits cs
  if -0x8000000000000000 ≤ i ∧ i < 0x8000000000000000 then some i else none

/-- The double nearest to what a lexeme spells; infinite if that is out of range. -/
def ofFloatText (text : String) : Binary64 :=
  let cs := text.toList
  let negative := cs.head? == some '-'
  let cs := if negative then cs.drop 1 else cs
  let mantissa := cs.takeWhile fun c => c != 'e' && c != 'E'
  let exponent : Int := match cs.drop (mantissa.length + 1) with
    | '-' :: ds => -(digits ds : Int)
    | '+' :: ds => digits ds
    | ds => digits ds
  let whole := mantissa.takeWhile (· != '.')
  let fraction := mantissa.drop (whole.length + 1)
  .ofDecimal negative (digits (whole ++ fraction)) (exponent - fraction.length)

mutual

/-- The literal that a value denotes; `missing` is the error for a value that was left out. -/
def ofSyntax (missing : SpecError) : Syntax.Value → Except SpecError Literal
  | .missing => .error missing
  | .variable name => .ok (.variable name)
  | .int text =>
    match int? text with
    | some i => .ok (int i)
    | none => .error (.invalidInt text)
  | .float text => .ok (float (ofFloatText text))
  | .string contents => .ok (string contents)
  | .boolean b => .ok (boolean b)
  | .null => .ok null
  | .enum name => .ok (enum name)
  | .list items => (ofItems missing items).map list
  | .object fields => (ofFields fields).map object

def ofItems (missing : SpecError) : List Syntax.Value → Except SpecError (List Literal)
  | [] => .ok []
  | item :: items => do
    let literal ← ofSyntax missing item
    return literal :: (← ofItems missing items)

def ofFields : List (String × Syntax.Value) → Except SpecError (List (String × Literal))
  | [] => .ok []
  | (name, value) :: fields => do
    let literal ← ofSyntax (.missingFieldValue name) value
    return (name, literal) :: (← ofFields fields)

end

/-- The value of an argument. -/
def ofArgument (name : String) (value : Syntax.Value) : Except SpecError Literal :=
  ofSyntax (.missingArgumentValue name) value

open Json (Value)

mutual

/-- The value under bindings of variables. There is none only for a variable without a binding;
in a list such a variable is null, and in an object its field is left out. -/
def evaluate (bindings : Entries Value) : Literal → Option Value
  | .variable name => Entries.get? name bindings
  | int i => some (.int i)
  | float x => some (if x.isFinite then .number (.double x) else .null)
  | string s => some (.string s)
  | boolean b => some (.bool b)
  | null => some .null
  | enum name => some (.string name)
  | list items => some (.array (evaluateItems bindings items))
  | object fields => some (.object (Entries.ofList (evaluateFields bindings fields)))

def evaluateItems (bindings : Entries Value) : List Literal → List Value
  | [] => []
  | item :: items =>
    (evaluate bindings item).getD .null :: evaluateItems bindings items

def evaluateFields (bindings : Entries Value) : List (String × Literal) → List (String × Value)
  | [] => []
  | (name, literal) :: fields =>
    match evaluate bindings literal with
    | some value => (name, value) :: evaluateFields bindings fields
    | none => evaluateFields bindings fields

end

/-- The value of a literal that has no variables, such as a default. -/
def evaluateConst (literal : Literal) : Value := (literal.evaluate []).getD .null

end Literal

/-- The values of arguments; one that is a variable without a binding is left out. -/
def Argument.evaluateAll (bindings : Entries Json.Value) (arguments : List (Argument Literal)) :
    Entries Json.Value :=
  Entries.ofList (arguments.filterMap fun a => (a.value.evaluate bindings).map (a.name, ·))

end GraphQL
