import GraphQL.Document.Document
import GraphQL.Proofs.Syntax.Layout

/-!
How executable definitions are written.

The relations follow the grammar of October 2021: each says which words may stand for a thing. How
words are spelled and laid out in a text is told by `Laid`.

A comma means nothing in the grammar and may stand anywhere between words. The parser takes none
after an ellipsis and none between an alias and its colon, where it would not build the tree of the
grammar; the words there are joined.
-/

set_option autoImplicit false

namespace GraphQL

open Syntax Syntax.Grammar

namespace Syntax

/-- The words, with no comma before the first of them. -/
def joinFirst : List Word → List Word
  | [] => []
  | w :: ws => { w with joined := true } :: ws

/-- Things that are written one after the other. -/
inductive Many {β : Type} (R : β → List Word → Prop) : List β → List Word → Prop where
  | nil : Many R [] []
  | cons {b : β} {bs : List β} {ws vs : List Word} : R b ws → Many R bs vs →
      Many R (b :: bs) (ws ++ vs)

/-- Things in brackets, which are left out where there is no such thing. -/
inductive Group {β : Type} (opening closing : Punctuator) (R : β → List Word → Prop) :
    List β → List Word → Prop where
  | none : Group opening closing R [] []
  | some {b : β} {bs : List β} {ws : List Word} : Many R (b :: bs) ws →
      Group opening closing R (b :: bs) (sign opening :: (ws ++ [sign closing]))

/-- A name, a colon and what belongs to the name. -/
inductive Labeled {V : Type} (R : V → List Word → Prop) : String × V → List Word → Prop where
  | mk {name : String} {v : V} {ws : List Word} : IsName name → R v ws →
      Labeled R (name, v) (word name :: sign .colon :: ws)

namespace Value

mutual

/-- How many levels of lists and objects a value has below its outermost. -/
def depth : Value → Nat
  | .list items => depthItems items
  | .object fields => depthFields fields
  | _ => 0

def depthItems : List Value → Nat
  | [] => 0
  | item :: items => max (item.depth + 1) (depthItems items)

def depthFields : List (String × Value) → Nat
  | [] => 0
  | (_, value) :: fields => max (value.depth + 1) (depthFields fields)

end

/-- The words of a value. A constant has no variables. -/
inductive Written (constant : Bool) : Value → List Word → Prop where
  | reference {name : String} : constant = false → IsName name →
      Written constant (.variable name) [sign .dollar, word name]
  | int (text : String) : Written constant (.int text) [⟨.int text, false⟩]
  | float (text : String) : Written constant (.float text) [⟨.float text, false⟩]
  | string (contents : String) : Written constant (.string contents) [⟨.string contents, false⟩]
  | boolean (b : Bool) : Written constant (.boolean b) [word (if b then "true" else "false")]
  | null : Written constant .null [word "null"]
  | enum {name : String} : IsName name → name ≠ "true" → name ≠ "false" → name ≠ "null" →
      Written constant (.enum name) [word name]
  | list {items : List Value} {ws : List Word} : Many (Written constant) items ws →
      Written constant (.list items) (sign .openBracket :: (ws ++ [sign .closeBracket]))
  | object {fields : List (String × Value)} {ws : List Word} :
      Many (Labeled (Written constant)) fields ws →
      Written constant (.object fields) (sign .openBrace :: (ws ++ [sign .closeBrace]))

/-- The words of a value that stays within some levels of nesting. -/
def Within (constant : Bool) (room : Nat) (v : Value) (ws : List Word) : Prop :=
  v.Written constant ws ∧ v.depth ≤ room

end Value

/-- The number of an exponent part, which may have a sign. -/
def Lexeme.Spelling.scale (s : Spelling) : Int :=
  match s.exponent.getD [] with
  | '-' :: ds => -(Literal.digits ds : Int)
  | '+' :: ds => Literal.digits ds
  | ds => Literal.digits ds

/-- The double nearest to a number: its digits, less the point, times a power of ten. -/
def Lexeme.Spelling.nearest (s : Spelling) : Binary64 :=
  .ofDecimal s.negative (Literal.digits (s.whole ++ s.fraction.getD []))
    (s.scale - (s.fraction.getD []).length)

/-- Two things that belong to the same name. -/
inductive Labeled.Same {V W : Type} (R : V → W → Prop) : String × V → String × W → Prop where
  | mk {name : String} {v : V} {w : W} : R v w → Same R (name, v) (name, w)

end Syntax

/-- The literal of a written value. A number is denoted by any of its spellings. -/
inductive Literal.DenotedBy : Literal → Syntax.Value → Prop where
  | reference (name : String) : DenotedBy (.variable name) (.variable name)
  | int {i : Int} {text : String} : text = toString i ∨ text = "-0" ∧ i = 0 →
      -0x8000000000000000 ≤ i → i < 0x8000000000000000 → DenotedBy (.int i) (.int text)
  | float {s : Lexeme.Spelling} {mark : Char} {text : String} : s.isValid = true →
      Lexeme.IsMark mark → text.toList = s.chars mark → DenotedBy (.float s.nearest) (.float text)
  | string (contents : String) : DenotedBy (.string contents) (.string contents)
  | boolean (b : Bool) : DenotedBy (.boolean b) (.boolean b)
  | null : DenotedBy .null .null
  | enum (name : String) : DenotedBy (.enum name) (.enum name)
  | list {literals : List Literal} {items : List Syntax.Value} :
      List.Forall₂ DenotedBy literals items → DenotedBy (.list literals) (.list items)
  | object {literals : List (String × Literal)} {fields : List (String × Syntax.Value)} :
      List.Forall₂ (Labeled.Same DenotedBy) literals fields →
      DenotedBy (.object literals) (.object fields)

/-- The words of a literal: those of a value that denotes it. -/
def Literal.Written (constant : Bool) (room : Nat) (l : Literal) (ws : List Word) : Prop :=
  ∃ v : Syntax.Value, l.DenotedBy v ∧ v.Within constant room ws

/-- The words of a type. The built-in scalars have their names; no non-null mark follows another. -/
inductive TypeRef.Written : (room : Nat) → TypeRef → List Word → Prop where
  | name {room : Nat} {name : String} : IsName name → Written room (.ofName name) [word name]
  | list {room : Nat} {item : TypeRef} {ws : List Word} : Written room item ws →
      Written (room + 1) (.list item) (sign .openBracket :: (ws ++ [sign .closeBracket]))
  | nonNull {room : Nat} {inner : TypeRef} {ws : List Word} : inner.isNonNull = false →
      Written room inner ws → Written room (.nonNull inner) (ws ++ [sign .bang])

section

variable {V : Type} (R : V → List Word → Prop)

def Argument.Written (a : Argument V) (ws : List Word) : Prop := Labeled R (a.name, a.value) ws

inductive Directive.Written : Directive V → List Word → Prop where
  | mk {d : Directive V} {arguments : List Word} : IsName d.name →
      Group .openParen .closeParen (Argument.Written R) d.arguments arguments →
      Written d (sign .at :: word d.name :: arguments)

end

/-- The words of the name of a field and of its alias; the colon is joined to the alias. -/
inductive FieldHead.NameWritten : Option String → String → List Word → Prop where
  | plain {name : String} : IsName name → NameWritten none name [word name]
  | aliased {«alias» name : String} : IsName «alias» → IsName name →
      NameWritten (some «alias») name [word «alias», ⟨.punctuator .colon, true⟩, word name]

inductive FieldHead.Written (room : Nat) : FieldHead Literal → List Word → Prop where
  | mk {head : FieldHead Literal} {names arguments directives : List Word} :
      NameWritten head.alias? head.name names →
      Group .openParen .closeParen (Argument.Written (Literal.Written false room)) head.arguments
        arguments →
      Many (Directive.Written (Literal.Written false room)) head.directives directives →
      Written room head (names ++ (arguments ++ directives))

/-- The words of a fragment spread after its ellipsis. -/
inductive Spread.Written (room : Nat) : Spread Literal → List Word → Prop where
  | mk {s : Spread Literal} {directives : List Word} : IsName s.fragment → s.fragment ≠ "on" →
      Many (Directive.Written (Literal.Written false room)) s.directives directives →
      Written room s (word s.fragment :: directives)

inductive InlineHead.ConditionWritten : Option String → List Word → Prop where
  | none : ConditionWritten none []
  | some {type : String} : IsName type → ConditionWritten (some type) [word "on", word type]

/-- The words of an inline fragment between its ellipsis and its selections. -/
inductive InlineHead.Written (room : Nat) : InlineHead Literal → List Word → Prop where
  | mk {head : InlineHead Literal} {condition directives : List Word} :
      ConditionWritten head.condition condition →
      Many (Directive.Written (Literal.Written false room)) head.directives directives →
      Written room head (condition ++ directives)

/-- The words of a selection whose own selection set is written as `nested` says. No comma stands
after an ellipsis. -/
inductive Selection.Written (room : Nat) (nested : List (Selection Literal) → List Word → Prop) :
    Selection Literal → List Word → Prop where
  | leaf {head : FieldHead Literal} {ws : List Word} : head.Written room ws →
      Written room nested (.field head []) ws
  | field {head : FieldHead Literal} {selections : List (Selection Literal)} {ws vs : List Word} :
      head.Written room ws → nested selections vs →
      Written room nested (.field head selections) (ws ++ vs)
  | spread {s : Spread Literal} {ws : List Word} : s.Written room ws →
      Written room nested (.spread s) (sign .spread :: joinFirst ws)
  | inline {head : InlineHead Literal} {selections : List (Selection Literal)}
      {ws vs : List Word} : head.Written room ws → nested selections vs →
      Written room nested (.inline head selections) (sign .spread :: joinFirst (ws ++ vs))

/-- The words of a selection set, which is not empty and takes one level of nesting. -/
def Selection.SetWritten : (room : Nat) → List (Selection Literal) → List Word → Prop
  | 0, _, _ => False
  | room + 1, selections, ws => selections ≠ [] ∧
      ∃ vs, Many (Selection.Written room (SetWritten room)) selections vs ∧
        ws = sign .openBrace :: (vs ++ [sign .closeBrace])

/-- The words of a default value, with the sign before it. -/
inductive VariableDefinition.DefaultWritten : Option Literal → List Word → Prop where
  | none : DefaultWritten none []
  | some {l : Literal} {ws : List Word} : l.Written true nestingLimit ws →
      DefaultWritten (some l) (sign .equals :: ws)

/-- The words of a variable definition. It may have directives, but is the same without them. -/
inductive VariableDefinition.Written : VariableDefinition Literal → List Word → Prop where
  | mk {d : VariableDefinition Literal} {type default directives : List Word}
      {written : List (Directive Syntax.Value)} : IsName d.name →
      d.type.Written nestingLimit type → DefaultWritten d.default default →
      Many (Directive.Written (Syntax.Value.Within true nestingLimit)) written directives →
      Written d (sign .dollar :: word d.name :: sign .colon :: (type ++ (default ++ directives)))

inductive Operation.NameWritten : Option String → List Word → Prop where
  | anonymous : NameWritten none []
  | named {name : String} : IsName name → NameWritten (some name) [word name]

/-- The words of an operation. -/
inductive Operation.Written : Operation Literal → List Word → Prop where
  /-- A query that is nothing but its selections has no need of its keyword. -/
  | shorthand {o : Operation Literal} {selections : List Word} : o.name = none →
      o.kind = .query → o.variableDefinitions = [] → o.directives = [] →
      Selection.SetWritten nestingLimit o.selections selections → Written o selections
  | keyword {o : Operation Literal} {name parameters directives selections : List Word} :
      NameWritten o.name name →
      Group .openParen .closeParen VariableDefinition.Written o.variableDefinitions parameters →
      Many (Directive.Written (Literal.Written false nestingLimit)) o.directives directives →
      Selection.SetWritten nestingLimit o.selections selections →
      Written o (word o.kind.render :: (name ++ (parameters ++ (directives ++ selections))))

/-- The words of a fragment definition. -/
inductive Fragment.Written : Fragment Literal → List Word → Prop where
  | mk {f : Fragment Literal} {directives selections : List Word} : IsName f.name →
      f.name ≠ "on" → IsName f.condition →
      Many (Directive.Written (Literal.Written false nestingLimit)) f.directives directives →
      Selection.SetWritten nestingLimit f.selections selections →
      Written f (word "fragment" :: word f.name :: word "on" :: word f.condition ::
        (directives ++ selections))

def Definition.Written : Definition Literal → List Word → Prop
  | .operation o => o.Written
  | .fragment f => f.Written

/-- A text of these definitions, of which there is at least one. -/
def Definition.IsText (definitions : List (Definition Literal)) (text : String) : Prop :=
  definitions ≠ [] ∧ ∃ ws, Many Definition.Written definitions ws ∧ Laid ws text.toList

end GraphQL
