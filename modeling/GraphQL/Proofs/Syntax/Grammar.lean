import GraphQL.Proofs.Document.Keys
import GraphQL.Proofs.Syntax.Yields
import GraphQL.Syntax.Document

/-!
What the grammar lets stand in a text: a type has no non-null mark right after another one, and the
response keys of selections are names.
-/

set_option autoImplicit false

namespace GraphQL

/-- No non-null mark stands right inside another one. -/
def TypeRef.Plain : TypeRef → Prop
  | nonNull inner => inner.isNonNull = false ∧ inner.Plain
  | list item => item.Plain
  | _ => True

def Declaration.Plain {V : Type} : Declaration V → Prop
  | .object _ _ fields => ∀ f ∈ fields, f.type.Plain
  | .interface _ _ fields => ∀ f ∈ fields, f.type.Plain
  | _ => True

/-- The response keys in a definition have a property. -/
def Definition.Keys {V : Type} (K : String → Prop) : Definition V → Prop
  | .operation o => Selection.AllKeys K o.selections
  | .fragment f => Selection.AllKeys K f.selections

def Syntax.Item.Sound (K : String → Prop) : Syntax.Item → Prop
  | .executable d => d.Keys K
  | .schema i => i.declaration.Plain

theorem TypeRef.plain_ofName (name : String) :
    (TypeRef.ofName name).isNonNull = false ∧ (TypeRef.ofName name).Plain := by
  unfold TypeRef.ofName
  repeat' split
  all_goals exact ⟨rfl, trivial⟩

namespace Syntax.Grammar

open Syntax.Parser

variable {T : Token → Prop} {K : String → Prop}

theorem yields_typeWith {inner : Parser TypeRef} (hi : Yields T inner TypeRef.Plain) :
    Yields T (typeWith inner) TypeRef.Plain := by
  refine Yields.bind (P := fun t => t.isNonNull = false ∧ t.Plain) ?_ fun t ht => ?_
  · refine (Yields.punctuator? _).seq fun _ => .ite (fun _ => ?_) fun _ => ?_
    · exact hi.bind fun _ h => (Yields.punctuator _).seq fun _ => .pure ⟨rfl, h⟩
    · exact Yields.anyName.bind fun name _ => .pure (TypeRef.plain_ofName name)
  · exact (Yields.punctuator? _).seq fun _ => .ite (fun _ => .pure ht) fun _ => .pure ht.2

theorem yields_typeRef : ∀ room : Nat, Yields T (typeRef room) TypeRef.Plain
  | 0 => yields_typeWith .unexpected
  | room + 1 => yields_typeWith (yields_typeRef room)

/-! Of values, arguments and directives nothing is asked but that they leave tokens as they are. -/

theorem yields_valueAfterColon {value : Parser Value} (hv : Yields T value fun _ => True) :
    Yields T (valueAfterColon value) fun _ => True :=
  (Yields.punctuator? _).seq fun _ => .ite (fun _ => hv) fun _ => .pure trivial

theorem yields_objectField {value : Parser Value} (hv : Yields T value fun _ => True) :
    Yields T (objectField value) fun _ => True :=
  Yields.anyName.any.seq fun _ => (yields_valueAfterColon hv).seq fun _ => .pure trivial

theorem yields_valueWith (constant : Bool) {inner : Parser Value}
    (hi : Yields T inner fun _ => True) : Yields T (valueWith constant inner) fun _ => True := by
  refine Yields.peek?.any.seq fun _ => ?_
  split
  · exact .ite (fun _ => .unexpected) fun _ =>
      Yields.skip.seq fun _ => Yields.anyName.any.seq fun _ => .pure trivial
  · exact Yields.skip.seq fun _ => .pure trivial
  · exact Yields.skip.seq fun _ => .pure trivial
  · exact Yields.skip.seq fun _ => .pure trivial
  · exact Yields.skip.seq fun _ => .pure trivial
  · exact Yields.skip.seq fun _ => (Yields.upTo _ hi).any.seq fun _ => .pure trivial
  · exact Yields.skip.seq fun _ =>
      (Yields.upTo _ (yields_objectField hi)).any.seq fun _ => .pure trivial
  · exact .unexpected

theorem yields_value (constant : Bool) : ∀ room : Nat, Yields T (value constant room) fun _ => True
  | 0 => yields_valueWith constant .unexpected
  | room + 1 => yields_valueWith constant (yields_value constant room)

theorem yields_arguments (constant : Bool) (room : Nat) :
    Yields T (arguments constant room) fun _ => True := by
  refine (Yields.punctuator? _).seq fun _ => .ite (fun _ => ?_) fun _ => .pure trivial
  refine (Yields.someUpTo (P := fun _ => True) _ ?_).any
  exact Yields.anyName.any.seq fun _ =>
    (yields_valueAfterColon (yields_value constant room)).seq fun _ => .pure trivial

theorem yields_directives (constant : Bool) (room : Nat) :
    Yields T (directives constant room) fun _ => True := by
  refine (Yields.whileNext (P := fun _ => True) _ ?_).any
  exact Yields.location.seq fun _ => (Yields.punctuator _).seq fun _ =>
    Yields.anyName.any.seq fun _ => (yields_arguments constant room).seq fun _ => .pure trivial

theorem yields_defaultValue (room : Nat) : Yields T (defaultValue room) fun _ => True :=
  (Yields.punctuator? _).seq fun _ =>
    .ite (fun _ => (yields_value true room).seq fun _ => .pure trivial) fun _ => .pure trivial

theorem yields_variableDefinitions : Yields T variableDefinitions fun _ => True := by
  refine (Yields.punctuator? _).seq fun _ => .ite (fun _ => ?_) fun _ => .pure trivial
  refine (Yields.someUpTo (P := fun _ => True) _ ?_).any
  exact Yields.location.seq fun _ => (Yields.punctuator _).seq fun _ =>
    Yields.anyName.any.seq fun _ => (Yields.punctuator _).seq fun _ =>
      (yields_typeRef _).any.seq fun _ => (yields_defaultValue _).seq fun _ =>
        (yields_directives _ _).seq fun _ => .pure trivial

section

variable (hT : ∀ t text, T t → t.lexeme = .name text → K text)

include hT

theorem yields_name : Yields T anyName K :=
  Yields.anyName.mono fun text ⟨t, ht, htext⟩ => hT t text ht htext

theorem yields_selectionWith (room : Nat) {nested : Parser (List (Selection Value))}
    (hn : Yields T nested (Selection.AllKeys K)) :
    Yields T (selectionWith room nested) (Selection.Keys K) := by
  refine Yields.location.seq fun _ => (Yields.punctuator? _).seq fun _ =>
    .ite (fun _ => ?_) fun _ => ?_
  · refine Yields.noComma.seq fun _ => Yields.peek?.any.seq fun _ => ?_
    split
    · exact Yields.skip.seq fun _ => Yields.anyName.any.seq fun _ =>
        (yields_directives _ _).seq fun _ => hn.bind fun _ hs => .pure hs
    · exact Yields.skip.seq fun _ => (yields_directives _ _).seq fun _ => .pure trivial
    · exact (yields_directives _ _).seq fun _ => hn.bind fun _ hs => .pure hs
  · refine (yields_name hT).bind fun first hfirst =>
      Yields.bind (P := fun names => K (names.1.getD names.2)) ?_ fun names hnames => ?_
    · refine Yields.peek?.any.seq fun _ => .ite (fun _ => ?_) fun _ => .pure hfirst
      exact Yields.noComma.seq fun _ => Yields.skip.seq fun _ =>
        Yields.anyName.any.seq fun _ => .pure hfirst
    · refine (yields_arguments _ _).seq fun _ => (yields_directives _ _).seq fun _ =>
        (Yields.whenNext _ hn).bind fun selections hs => .pure ⟨hnames, ?_⟩
      cases selections with
      | none => exact trivial
      | some selections => exact hs selections rfl

theorem yields_selectionSet : ∀ room : Nat, Yields T (selectionSet room) (Selection.AllKeys K)
  | 0 => .unexpected
  | room + 1 => by
    refine (Yields.punctuator _).seq fun _ => ?_
    refine (Yields.someUpTo _ (yields_selectionWith hT room (yields_selectionSet room))).mono
      fun _ h => Selection.allKeys_iff.2 h

theorem yields_operationBody (kind : OperationKind) (location : Option Location) :
    Yields T (operationBody kind location) fun o => Selection.AllKeys K o.selections :=
  Yields.name?.seq fun _ => yields_variableDefinitions.seq fun _ =>
    (yields_directives _ _).seq fun _ => (yields_selectionSet hT _).bind fun _ hs => .pure hs

theorem yields_fragmentBody (location : Option Location) :
    Yields T (fragmentBody location) fun f => Selection.AllKeys K f.selections :=
  Yields.peek?.any.seq fun _ => .ite (fun _ => .unexpected) fun _ =>
    Yields.anyName.any.seq fun _ => (Yields.keyword _).seq fun _ =>
      Yields.anyName.any.seq fun _ => (yields_directives _ _).seq fun _ =>
        (yields_selectionSet hT _).bind fun _ hs => .pure hs

theorem yields_shorthand (location : Option Location) :
    Yields T (shorthand location) fun o => Selection.AllKeys K o.selections :=
  (yields_selectionSet hT _).bind fun _ hs => .pure hs

end

theorem yields_description : Yields T description fun _ => True := by
  refine Yields.peek?.any.seq fun _ => ?_
  split
  · exact .skip
  · exact .pure trivial

theorem yields_schemaDirectives : Yields T schemaDirectives fun _ => True :=
  (yields_directives _ _).seq fun _ => .pure trivial

theorem yields_braced {α : Type} {P : α → Prop} {item : Parser α} (hi : Yields T item P) :
    Yields T (braced item) fun as => ∀ a ∈ as, P a :=
  (Yields.punctuator? _).seq fun _ => .ite (fun _ => .someUpTo _ hi) fun _ => .pure nofun

theorem yields_inputValue : Yields T inputValue fun _ => True :=
  yields_description.seq fun _ => Yields.anyName.any.seq fun _ =>
    (Yields.punctuator _).seq fun _ => (yields_typeRef _).any.seq fun _ =>
      (yields_defaultValue _).seq fun _ => yields_schemaDirectives.seq fun _ => .pure trivial

theorem yields_argumentDeclarations : Yields T argumentDeclarations fun _ => True :=
  (Yields.punctuator? _).seq fun _ =>
    .ite (fun _ => (Yields.someUpTo _ yields_inputValue).any) fun _ => .pure trivial

theorem yields_fieldDeclaration : Yields T fieldDeclaration fun f => f.type.Plain :=
  yields_description.seq fun _ => Yields.anyName.any.seq fun _ =>
    yields_argumentDeclarations.seq fun _ => (Yields.punctuator _).seq fun _ =>
      (yields_typeRef _).bind fun _ ht => yields_schemaDirectives.seq fun _ => .pure ht

theorem yields_implementsList : Yields T implementsList fun _ => True :=
  (Yields.keyword? _).seq fun _ =>
    .ite (fun _ => (Yields.separatedBy _ Yields.anyName).any) fun _ => .pure trivial

theorem yields_unionMembers : Yields T unionMembers fun _ => True :=
  (Yields.punctuator? _).seq fun _ =>
    .ite (fun _ => (Yields.separatedBy _ Yields.anyName).any) fun _ => .pure trivial

theorem yields_enumValue : Yields T enumValue fun _ => True := by
  refine yields_description.seq fun _ => Yields.peek?.any.seq fun _ => ?_
  split
  · exact .ite (fun _ => .unexpected) fun _ =>
      Yields.skip.seq fun _ => yields_schemaDirectives.seq fun _ => .pure trivial
  · exact .unexpected

theorem yields_operationKind : Yields T operationKind fun _ => True :=
  (Yields.keyword? _).seq fun _ => .ite (fun _ => .pure trivial) fun _ =>
    (Yields.keyword? _).seq fun _ => .ite (fun _ => .pure trivial) fun _ =>
      (Yields.keyword _).seq fun _ => .pure trivial

theorem yields_rootOperation : Yields T rootOperation fun _ => True :=
  yields_operationKind.seq fun _ => (Yields.punctuator _).seq fun _ =>
    Yields.name?.seq fun _ => .pure trivial

theorem yields_directiveLocation : Yields T directiveLocation fun _ => True := by
  refine Yields.peek?.any.seq fun _ => ?_
  split
  · exact .ite (fun _ => .skip) fun _ => .unexpected
  · exact .unexpected

theorem yields_directiveDeclaration : Yields T directiveDeclaration Declaration.Plain :=
  (Yields.punctuator _).seq fun _ => Yields.anyName.any.seq fun _ =>
    yields_argumentDeclarations.seq fun _ => (Yields.keyword? _).seq fun _ =>
      (Yields.keyword _).seq fun _ =>
        (Yields.separatedBy _ yields_directiveLocation).any.seq fun _ => .pure trivial

theorem yields_nonEmpty {extending something : Bool} {d : Declaration Value} (hd : d.Plain) :
    Yields T (nonEmpty extending something d) Declaration.Plain :=
  .ite (fun _ => .unexpected) fun _ => .pure hd

theorem yields_declaration (extending : Bool) :
    Yields T (declaration extending) Declaration.Plain := by
  refine (Yields.keyword? _).seq fun _ => .ite (fun _ => ?schema) fun _ =>
    (Yields.keyword? _).seq fun _ => .ite (fun _ => ?scalar) fun _ =>
      (Yields.keyword? _).seq fun _ => .ite (fun _ => ?object) fun _ =>
        (Yields.keyword? _).seq fun _ => .ite (fun _ => ?interface) fun _ =>
          (Yields.keyword? _).seq fun _ => .ite (fun _ => ?union) fun _ =>
            (Yields.keyword? _).seq fun _ => .ite (fun _ => ?enum) fun _ =>
              (Yields.keyword? _).seq fun _ => .ite (fun _ => ?input) fun _ =>
                .ite (fun _ => .unexpected) fun _ =>
                  (Yields.keyword _).seq fun _ => yields_directiveDeclaration
  case schema =>
    refine yields_schemaDirectives.seq fun _ => .ite (fun _ => ?_) fun _ => ?_
    · exact (yields_braced yields_rootOperation).any.seq fun _ => .pure trivial
    · refine Yields.seq ?_ fun _ => yields_nonEmpty trivial
      exact (Yields.punctuator? _).seq fun _ =>
        .ite (fun _ => (Yields.upTo _ yields_rootOperation).any) fun _ => .pure trivial
  case scalar =>
    exact Yields.anyName.any.seq fun _ => yields_schemaDirectives.seq fun _ =>
      yields_nonEmpty trivial
  case object =>
    exact Yields.anyName.any.seq fun _ => yields_implementsList.seq fun _ =>
      yields_schemaDirectives.seq fun _ => (yields_braced yields_fieldDeclaration).bind
        fun _ hf => yields_nonEmpty hf
  case interface =>
    exact Yields.anyName.any.seq fun _ => yields_implementsList.seq fun _ =>
      yields_schemaDirectives.seq fun _ => (yields_braced yields_fieldDeclaration).bind
        fun _ hf => yields_nonEmpty hf
  case union =>
    exact Yields.anyName.any.seq fun _ => yields_schemaDirectives.seq fun _ =>
      yields_unionMembers.seq fun _ => yields_nonEmpty trivial
  case enum =>
    exact Yields.anyName.any.seq fun _ => yields_schemaDirectives.seq fun _ =>
      (yields_braced yields_enumValue).any.seq fun _ => yields_nonEmpty trivial
  case input =>
    exact Yields.anyName.any.seq fun _ => yields_schemaDirectives.seq fun _ =>
      (yields_braced yields_inputValue).any.seq fun _ => yields_nonEmpty trivial

theorem yields_item (hT : ∀ t text, T t → t.lexeme = .name text → K text) :
    Yields T Item.grammar (Item.Sound K) := by
  refine Yields.location.seq fun _ => Yields.peek?.any.seq fun _ => ?_
  split
  · refine Yields.skip.seq fun _ => Yields.noComma.seq fun _ => Yields.peek?.any.seq fun _ =>
      .ite (fun _ => ?_) fun _ => ?_
    · exact (yields_fragmentBody hT _).bind fun _ hs => .pure hs
    · exact (yields_declaration false).bind fun _ hd => .pure hd
  · exact (yields_shorthand hT _).bind fun _ hs => .pure hs
  · refine (Yields.keyword? _).seq fun _ => .ite (fun _ => ?_) fun _ =>
      (Yields.keyword? _).seq fun _ => .ite (fun _ => ?_) fun _ =>
        (Yields.keyword? _).seq fun _ => .ite (fun _ => ?_) fun _ =>
          (Yields.keyword? _).seq fun _ => .ite (fun _ => ?_) fun _ =>
            (Yields.keyword? _).seq fun _ => .ite (fun _ => ?_) fun _ => ?_
    · exact (yields_operationBody hT _ _).bind fun _ hs => .pure hs
    · exact (yields_operationBody hT _ _).bind fun _ hs => .pure hs
    · exact (yields_operationBody hT _ _).bind fun _ hs => .pure hs
    · exact (yields_fragmentBody hT _).bind fun _ hs => .pure hs
    · exact Yields.noComma.seq fun _ => (yields_declaration true).bind fun _ hd => .pure hd
    · exact (yields_declaration false).bind fun _ hd => .pure hd

end Syntax.Grammar

open Syntax in
theorem Syntax.Item.sound_of_parse {K : String → Prop} {text : String} {tokens : List Token}
    {items : List Item} (ht : Token.ofText text = .ok tokens)
    (hK : ∀ t ∈ tokens, ∀ name, t.lexeme = .name name → K name) (h : Item.parse text = .ok items) :
    ∀ i ∈ items, i.Sound K := by
  obtain ⟨_, ht', h⟩ := bind_eq_ok_iff.1 h
  cases ht.symm.trans ht'
  obtain ⟨⟨found, rest⟩, hf, h⟩ := bind_eq_ok_iff.1 h
  have hitem : Parser.Yields (fun t => ∀ name, t.lexeme = .name name → K name) Item.grammar
      (Item.Sound K) := Grammar.yields_item fun t text hT => hT text
  have hall : Parser.Yields (fun t => ∀ name, t.lexeme = .name name → K name) Item.all
      fun items => ∀ i ∈ items, i.Sound K :=
    hitem.bind fun _ hi => (Parser.Yields.manyUntil _ hitem).bind fun _ his =>
      .pure (List.forall_mem_cons.2 ⟨hi, his⟩)
  obtain ⟨hsound, -⟩ := hall tokens found rest hK hf
  dsimp only at h
  split at h
  · cases h
    exact hsound
  · cases h

end GraphQL
