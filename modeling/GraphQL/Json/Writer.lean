import GraphQL.Json.Value

/-!
Compact JSON text: no blanks, members in their order, and only quotes, backslashes and control
characters escaped.
-/

set_option autoImplicit false

namespace GraphQL.Json

def hexDigits (n : Nat) : List Char := Nat.toDigits 16 n

/-- The written form of a character inside a string. -/
def escape (c : Char) : List Char :=
  match c with
  | '"' => ['\\', '"']
  | '\\' => ['\\', '\\']
  | '\n' => ['\\', 'n']
  | '\r' => ['\\', 'r']
  | '\t' => ['\\', 't']
  | '\x08' => ['\\', 'b']
  | '\x0c' => ['\\', 'f']
  | c =>
    if c.toNat < 0x20 then
      let digits := hexDigits c.toNat
      '\\' :: 'u' :: (List.replicate (4 - digits.length) '0' ++ digits)
    else [c]

def quote (s : String) : String :=
  String.ofList ('"' :: (s.toList.flatMap escape ++ ['"']))

namespace Value

mutual

def render : Value → String
  | null => "null"
  | bool b => if b then "true" else "false"
  | number n => n.render
  | string s => quote s
  | array items => "[" ++ String.intercalate "," (renderItems items) ++ "]"
  | object members => "\x7b" ++ String.intercalate "," (renderMembers members) ++ "\x7d"

def renderItems : List Value → List String
  | [] => []
  | v :: vs => v.render :: renderItems vs

def renderMembers : List (String × Value) → List String
  | [] => []
  | (k, v) :: vs => (quote k ++ ":" ++ v.render) :: renderMembers vs

end

end Value

end GraphQL.Json
