import GraphQL.Json.Token

/-!
Reading JSON text.

Text is first read into a `Tree`, which keeps repeated members and tokens that stand for no value;
`Tree.toValue` then gives the value, in which a repeated member keeps its first position and its
last value. Reading a tree runs a pushdown automaton over the tokens, so it is a left fold.
-/

set_option autoImplicit false

namespace GraphQL.Json

/-- A JSON text as written. -/
inductive Tree where
  | null
  | bool (b : Bool)
  | number (n : Option Number)
  | string (s : Option String)
  | array (items : List Tree)
  | object (members : List (Option String × Tree))
  deriving Repr, Inhabited

namespace Tree

/-- A container that is still open, its last entry first. -/
inductive Frame where
  | array (items : List Tree)
  | object (members : List (Option String × Tree)) (key : Option String)

/-- What may come next. -/
inductive Expecting where
  | value
  | itemOrClose
  | keyOrClose
  | key
  | colon
  | commaOrClose
  | nothing
  deriving DecidableEq

structure State where
  stack : List Frame
  expecting : Expecting
  done : Option Tree

namespace State

def start : State := ⟨[], .value, none⟩

def expectsValue (s : State) : Bool :=
  s.expecting = .value || s.expecting = .itemOrClose

/-- Puts a complete value into the innermost open container. -/
def complete (stack : List Frame) (tree : Tree) : State :=
  match stack with
  | [] => ⟨[], .nothing, some tree⟩
  | .array items :: stack => ⟨.array (tree :: items) :: stack, .commaOrClose, none⟩
  | .object members key :: stack =>
    ⟨.object ((key, tree) :: members) none :: stack, .commaOrClose, none⟩

def scalar (s : State) (tree : Tree) : Option State :=
  if s.expectsValue then some (complete s.stack tree) else none

def step (s : State) : Token → Option State
  | .null => s.scalar .null
  | .bool b => s.scalar (.bool b)
  | .number n => s.scalar (.number n)
  | .string t =>
    match s.expecting, s.stack with
    | .keyOrClose, .object members _ :: stack => some ⟨.object members t :: stack, .colon, none⟩
    | .key, .object members _ :: stack => some ⟨.object members t :: stack, .colon, none⟩
    | _, _ => s.scalar (.string t)
  | .openArray => if s.expectsValue then some ⟨.array [] :: s.stack, .itemOrClose, none⟩ else none
  | .openObject =>
    if s.expectsValue then some ⟨.object [] none :: s.stack, .keyOrClose, none⟩ else none
  | .closeArray =>
    match s.expecting, s.stack with
    | .itemOrClose, .array items :: stack => some (complete stack (.array items.reverse))
    | .commaOrClose, .array items :: stack => some (complete stack (.array items.reverse))
    | _, _ => none
  | .closeObject =>
    match s.expecting, s.stack with
    | .keyOrClose, .object members _ :: stack => some (complete stack (.object members.reverse))
    | .commaOrClose, .object members _ :: stack => some (complete stack (.object members.reverse))
    | _, _ => none
  | .colon => if s.expecting = .colon then some { s with expecting := .value } else none
  | .comma =>
    match s.expecting, s.stack with
    | .commaOrClose, .array _ :: _ => some { s with expecting := .value }
    | .commaOrClose, .object _ _ :: _ => some { s with expecting := .key }
    | _, _ => none

end State

def ofTokens (tokens : List Token) : Option Tree :=
  (tokens.foldlM State.step State.start).bind State.done

def parse (text : String) : Option Tree := (Token.scan text.toList).bind ofTokens

mutual

/-- The value of a tree with at most `limit` levels of nesting. -/
def toValue (limit : Nat) : Tree → Option Value
  | null => some .null
  | bool b => some (.bool b)
  | number n => n.map .number
  | string s => s.map .string
  | array items =>
    match limit with
    | 0 => none
    | limit + 1 => (toItems limit items).map .array
  | object members =>
    match limit with
    | 0 => none
    | limit + 1 => (toMembers limit members).map fun ms => .object (Entries.ofList ms)

def toItems (limit : Nat) : List Tree → Option (List Value)
  | [] => some []
  | item :: items => do
    let v ← toValue limit item
    let vs ← toItems limit items
    return v :: vs

def toMembers (limit : Nat) : List (Option String × Tree) → Option (List (String × Value))
  | [] => some []
  | (key, member) :: members => do
    let k ← key
    let v ← toValue limit member
    let vs ← toMembers limit members
    return (k, v) :: vs

end

end Tree

/-- Containers may be nested this deep in JSON text. -/
def nestingLimit : Nat := 127

def Value.parse (text : String) : Option Value :=
  (Tree.parse text).bind (Tree.toValue nestingLimit)

end GraphQL.Json
