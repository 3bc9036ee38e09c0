import GraphQL.Literal
import GraphQL.Proofs.Syntax.Takes
import GraphQL.Syntax.Document

/-!
Which tokens each thing in a text occupies, and what is wrong at them.

The relations follow the grammar that is accepted: the colon of an argument or of an object field
may be missing together with its value, and then the defect is at the name. An integer without
64 bits is a defect too. What no reader of a document looks at, type system definitions and the
directives of variables, has no defects.
-/

set_option autoImplicit false

namespace GraphQL

open Syntax Syntax.Parser

namespace Syntax

/-- Things between brackets, or nothing at all. -/
inductive Bracketed {β : Type} (opening closing : Punctuator) (R : β → List Spot → Prop) :
    List β → List Spot → Prop where
  | none : Bracketed opening closing R [] []
  | some {bs : List β} {spots : List Spot} : Enclosed opening closing R bs spots →
      Bracketed opening closing R bs spots

/-- A name with its value. Without a value there is a defect at the name. -/
inductive Member (defect : String → Defect) (R : Value → List Spot → Prop) :
    String × Value → List Spot → Prop where
  | given {n c : Spot} {name : String} {v : Value} {spots : List Spot} : n.Is (.name name) →
      c.Is (.punctuator .colon) → R v spots → Member defect R (name, v) (n :: c :: spots)
  | missing {t : Token} {name : String} : t.lexeme = .name name →
      Member defect R (name, .missing) [⟨t, some (defect name)⟩]

/-- The integer that a lexeme spells. -/
def Lexeme.integer (text : String) : Int :=
  match text.toList with
  | '-' :: cs => -(Literal.digits cs : Int)
  | cs => Literal.digits cs

/-- Integers of 64 bits. -/
def HasSixtyFourBits (i : Int) : Prop := -0x8000000000000000 ≤ i ∧ i < 0x8000000000000000

instance (i : Int) : Decidable (HasSixtyFourBits i) := inferInstanceAs (Decidable (_ ∧ _))

inductive Value.Occupies : Value → List Spot → Prop where
  | reference {d n : Spot} {name : String} : d.Is (.punctuator .dollar) → n.Is (.name name) →
      Occupies (.variable name) [d, n]
  | int {s : Spot} {text : String} : s.Is (.int text) → HasSixtyFourBits (Lexeme.integer text) →
      Occupies (.int text) [s]
  | tooLarge {t : Token} {text : String} : t.lexeme = .int text →
      ¬ HasSixtyFourBits (Lexeme.integer text) →
      Occupies (.int text) [⟨t, some (.integer text)⟩]
  | float {s : Spot} {text : String} : s.Is (.float text) → Occupies (.float text) [s]
  | string {s : Spot} {contents : String} : s.Is (.string contents) →
      Occupies (.string contents) [s]
  | boolean {s : Spot} (b : Bool) : s.Is (.name (if b then "true" else "false")) →
      Occupies (.boolean b) [s]
  | null {s : Spot} : s.Is (.name "null") → Occupies .null [s]
  | enum {s : Spot} {name : String} : name ∉ ["true", "false", "null"] → s.Is (.name name) →
      Occupies (.enum name) [s]
  | list {items : List Value} {spots : List Spot} :
      Enclosed .openBracket .closeBracket Occupies items spots → Occupies (.list items) spots
  | object {fields : List (String × Value)} {spots : List Spot} :
      Enclosed .openBrace .closeBrace (Member .field Occupies) fields spots →
      Occupies (.object fields) spots

end Syntax

/-- No non-null mark follows another one. -/
inductive TypeRef.Occupies : TypeRef → List Spot → Prop where
  | name {s : Spot} {name : String} : s.Is (.name name) → Occupies (.ofName name) [s]
  | list {o c : Spot} {item : TypeRef} {spots : List Spot} : o.Is (.punctuator .openBracket) →
      Occupies item spots → c.Is (.punctuator .closeBracket) →
      Occupies (.list item) (o :: (spots ++ [c]))
  | nonNull {b : Spot} {inner : TypeRef} {spots : List Spot} : inner.isNonNull = false →
      Occupies inner spots → b.Is (.punctuator .bang) → Occupies (.nonNull inner) (spots ++ [b])

def Argument.Occupies (a : Argument Value) (spots : List Spot) : Prop :=
  Member .argument Value.Occupies (a.name, a.value) spots

inductive Directive.Occupies : Directive Value → List Spot → Prop where
  | mk {d : Directive Value} {a n : Spot} {arguments : List Spot} : a.Is (.punctuator .at) →
      n.Is (.name d.name) →
      Bracketed .openParen .closeParen Argument.Occupies d.arguments arguments →
      Occupies d (a :: n :: arguments)

/-- The alias of a field and its name. -/
inductive FieldHead.NameOccupies : Option String → String → List Spot → Prop where
  | plain {n : Spot} {name : String} : n.Is (.name name) → NameOccupies none name [n]
  | aliased {a c n : Spot} {«alias» name : String} : a.Is (.name «alias») →
      c.Is (.punctuator .colon) → n.Is (.name name) → NameOccupies (some «alias») name [a, c, n]

inductive FieldHead.Occupies : FieldHead Value → List Spot → Prop where
  | mk {head : FieldHead Value} {names arguments : List Spot} {directives : List (List Spot)} :
      NameOccupies head.alias? head.name names →
      Bracketed .openParen .closeParen Argument.Occupies head.arguments arguments →
      List.Forall₂ Directive.Occupies head.directives directives →
      Occupies head (names ++ (arguments ++ directives.flatten))

/-- A fragment spread after its ellipsis. -/
inductive Spread.Occupies : Spread Value → List Spot → Prop where
  | mk {s : Spread Value} {n : Spot} {directives : List (List Spot)} : n.Is (.name s.fragment) →
      List.Forall₂ Directive.Occupies s.directives directives →
      Occupies s (n :: directives.flatten)

inductive InlineHead.ConditionOccupies : Option String → List Spot → Prop where
  | none : ConditionOccupies none []
  | some {o n : Spot} {type : String} : o.Is (.name "on") → n.Is (.name type) →
      ConditionOccupies (some type) [o, n]

/-- An inline fragment between its ellipsis and its selections. -/
inductive InlineHead.Occupies : InlineHead Value → List Spot → Prop where
  | mk {head : InlineHead Value} {condition : List Spot} {directives : List (List Spot)} :
      ConditionOccupies head.condition condition →
      List.Forall₂ Directive.Occupies head.directives directives →
      Occupies head (condition ++ directives.flatten)

inductive Selection.Occupies : Selection Value → List Spot → Prop where
  | leaf {head : FieldHead Value} {spots : List Spot} : head.Occupies spots →
      Occupies (.field head []) spots
  | field {head : FieldHead Value} {selections : List (Selection Value)}
      {spots set : List Spot} : head.Occupies spots →
      Enclosed .openBrace .closeBrace Occupies selections set →
      Occupies (.field head selections) (spots ++ set)
  | spread {e : Spot} {s : Spread Value} {spots : List Spot} : e.Is (.punctuator .spread) →
      s.Occupies spots → Occupies (.spread s) (e :: spots)
  | inline {e : Spot} {head : InlineHead Value} {selections : List (Selection Value)}
      {spots set : List Spot} : e.Is (.punctuator .spread) → head.Occupies spots →
      Enclosed .openBrace .closeBrace Occupies selections set →
      Occupies (.inline head selections) (e :: (spots ++ set))

inductive VariableDefinition.DefaultOccupies : Option Value → List Spot → Prop where
  | none : DefaultOccupies none []
  | some {e : Spot} {v : Value} {spots : List Spot} : e.Is (.punctuator .equals) →
      v.Occupies spots → DefaultOccupies (some v) (e :: spots)

/-- The directives of a variable are not read. -/
inductive VariableDefinition.Occupies : VariableDefinition Value → List Spot → Prop where
  | mk {v : VariableDefinition Value} {d n c : Spot} {type default : List Spot}
      {unread : List (Directive Value)} {directives : List (List Spot)} :
      d.Is (.punctuator .dollar) → n.Is (.name v.name) → c.Is (.punctuator .colon) →
      v.type.Occupies type → DefaultOccupies v.default default →
      List.Forall₂ Directive.Occupies unread directives →
      Occupies v (d :: n :: c :: (type ++ (default ++ directives.flatten.map Spot.unread)))

inductive Operation.NameOccupies : Option String → List Spot → Prop where
  | anonymous : NameOccupies none []
  | named {n : Spot} {name : String} : n.Is (.name name) → NameOccupies (some name) [n]

inductive Operation.Occupies : Operation Value → List Spot → Prop where
  | shorthand {o : Operation Value} {selections : List Spot} : o.name = none → o.kind = .query →
      o.variableDefinitions = [] → o.directives = [] →
      Enclosed .openBrace .closeBrace Selection.Occupies o.selections selections →
      Occupies o selections
  | keyword {o : Operation Value} {k : Spot} {name parameters selections : List Spot}
      {directives : List (List Spot)} : k.Is (.name o.kind.render) → NameOccupies o.name name →
      Bracketed .openParen .closeParen VariableDefinition.Occupies o.variableDefinitions
        parameters →
      List.Forall₂ Directive.Occupies o.directives directives →
      Enclosed .openBrace .closeBrace Selection.Occupies o.selections selections →
      Occupies o (k :: (name ++ (parameters ++ (directives.flatten ++ selections))))

/-- What follows the keyword of a fragment. -/
inductive Fragment.Occupies : Fragment Value → List Spot → Prop where
  | mk {f : Fragment Value} {n o c : Spot} {selections : List Spot}
      {directives : List (List Spot)} : n.Is (.name f.name) → o.Is (.name "on") →
      c.Is (.name f.condition) → List.Forall₂ Directive.Occupies f.directives directives →
      Enclosed .openBrace .closeBrace Selection.Occupies f.selections selections →
      Occupies f (n :: o :: c :: (directives.flatten ++ selections))

/-- The keyword of a fragment, or the description that is taken in its place. -/
inductive Fragment.Opens : Lexeme → Prop where
  | keyword : Opens (.name "fragment")
  | description (contents : String) : Opens (.string contents)

/-! Type system definitions, of which only the types of fields and of input values matter here. -/

/-- The type of an input value, under its name. -/
def InputValue.declared {V : Type} (i : InputValue V) : String × TypeRef := (i.name, i.type)

def FieldDeclaration.declared {V : Type} (f : FieldDeclaration V) : List (String × TypeRef) :=
  (f.name, f.type) :: f.arguments.map (·.declared)

def Declaration.declared {V : Type} : Declaration V → List (String × TypeRef)
  | .object _ _ fields => fields.flatMap (·.declared)
  | .interface _ _ fields => fields.flatMap (·.declared)
  | .input _ fields => fields.map (·.declared)
  | _ => []

/-- What comes before a type: at last the name whose type it is, perhaps something in parentheses,
and a colon. -/
inductive Syntax.Introduces (name : String) : List Lexeme → Prop where
  | plain (before : List Lexeme) :
      Introduces name (before ++ [.name name, .punctuator .colon])
  | parentheses (before inner : List Lexeme) :
      Introduces name (before ++ .name name :: .punctuator .openParen ::
        (inner ++ [.punctuator .closeParen, .punctuator .colon]))

/-- The type stands in the spots, introduced by its name. -/
def Syntax.Declares (e : String × TypeRef) (spots : List Spot) : Prop :=
  ∃ before part after, spots = before ++ (part ++ after) ∧
    Introduces e.1 (before.map fun s => s.token.lexeme) ∧ e.2.Occupies part

def Declaration.DeclaresAll {V : Type} (d : Declaration V) (spots : List Spot) : Prop :=
  ∀ e ∈ d.declared, Declares e spots

inductive Syntax.Item.Occupies : Item → List Spot → Prop where
  | operation {o : Operation Value} {spots : List Spot} : o.Occupies spots →
      Occupies (.executable (.operation o)) spots
  | fragment {k : Spot} {l : Lexeme} {f : Fragment Value} {spots : List Spot} :
      Fragment.Opens l → k.Is l → f.Occupies spots →
      Occupies (.executable (.fragment f)) (k :: spots)
  | schema {i : SchemaItem Value} {spots : List Spot} :
      i.declaration.DeclaresAll spots →
      Occupies (.schema i) (spots.map Spot.unread)

/-- The types that are declared in an item, under the names of what they are declared for. -/
def Syntax.Item.declared : Item → List (String × TypeRef)
  | .executable (.operation o) => o.variableDefinitions.map fun v => (v.name, v.type)
  | .executable (.fragment _) => []
  | .schema i => i.declaration.declared

/-- The spots are those of a text: of its items, one after the other. -/
def Syntax.Item.AreSpots (spots : List Spot) (text : String) : Prop :=
  ∃ items parts, parse text = .ok items ∧ List.Forall₂ Occupies items parts ∧
    spots = parts.flatten ∧ Token.ofText text = .ok (spots.map Spot.token)

end GraphQL
