import GraphQL.Proofs.Syntax.Grammar
import GraphQL.Proofs.Syntax.Occupying

/-!
What is parsed occupies the tokens that the parser takes: values, types, selections and executable
definitions.
-/

set_option autoImplicit false

namespace GraphQL.Syntax

theorem Lexeme.integer_of_int? {text : String} :
    Literal.int? text = if HasSixtyFourBits (integer text) then some (integer text) else none := rfl

namespace Grammar

open Syntax.Parser

/-! Values. -/

theorem takes_valueAfterColon {value : Parser Value} (hv : Takes value Value.Occupies) :
    Takes (valueAfterColon value) fun v spots =>
      (∃ c rest, Spot.Is c (.punctuator .colon) ∧ v.Occupies rest ∧ spots = c :: rest) ∨
        v = .missing ∧ spots = [] :=
  .punctuator_or (fun c hc => hv.mono fun _ rest h => .inl ⟨c, rest, hc, h, rfl⟩)
    (.pure (.inr ⟨rfl, rfl⟩))

/-- A name and what comes after it, which tells whether something is wrong at the name. -/
theorem takes_member {α : Type} (make : String → Value → α) {value : Parser Value}
    (hv : Takes value Value.Occupies) {defect : String → Defect} {R : α → List Spot → Prop}
    (hR : ∀ name v spots, Member defect Value.Occupies (name, v) spots → R (make name v) spots) :
    Takes (do
      let name ← anyName
      return make name (← valueAfterColon value)) R := by
  refine .labeled fun t name ht => (takes_valueAfterColon hv).bind ?_
  rintro v _ (⟨c, rest, hc, h, rfl⟩ | ⟨rfl, rfl⟩)
  · exact .pure ⟨⟨t, none⟩, rfl, hR _ _ _ (.given ⟨ht, rfl⟩ hc (by simpa using h))⟩
  · exact .pure ⟨_, rfl, hR _ _ _ (.missing ht)⟩

theorem takes_objectField {value : Parser Value} (hv : Takes value Value.Occupies) :
    Takes (objectField value) (Member .field Value.Occupies) :=
  takes_member Prod.mk hv fun _ _ _ h => h

theorem takes_valueWith (constant : Bool) {inner : Parser Value}
    (hi : Takes inner Value.Occupies) : Takes (valueWith constant inner) Value.Occupies := by
  refine .peek fun next => ?_
  split
  · refine .ite (fun _ => .unexpected) fun _ => .skipped fun d hd => ?_
    exact .named fun n name hn => .pure (.reference hd hn)
  · next text =>
    by_cases hbits : HasSixtyFourBits (Lexeme.integer text)
    · exact .skipped fun s hs => .pure (.int hs hbits)
    · exact .skip_then fun t ht => .pure ⟨_, rfl, .tooLarge ht hbits⟩
  · exact .skipped fun s hs => .pure (.float hs)
  · exact .skipped fun s hs => .pure (.string hs)
  · next text =>
    refine .skipped fun s hs => .pure ?_
    by_cases htrue : text = "true"
    · subst htrue
      exact .boolean true hs
    by_cases hfalse : text = "false"
    · subst hfalse
      exact .boolean false hs
    by_cases hnull : text = "null"
    · subst hnull
      exact .null hs
    · simp only [htrue, hfalse, hnull, if_false]
      exact .enum (by simp [htrue, hfalse, hnull]) hs
  · exact .skipped fun o ho => (Takes.upTo _ ho hi).bind fun items spots h =>
      .pure (.list (by simpa using h))
  · exact .skipped fun o ho => (Takes.upTo _ ho (takes_objectField hi)).bind fun fields spots h =>
      .pure (.object (by simpa using h))
  · exact .unexpected

theorem takes_value (constant : Bool) : ∀ room : Nat, Takes (value constant room) Value.Occupies
  | 0 => takes_valueWith constant .unexpected
  | room + 1 => takes_valueWith constant (takes_value constant room)

theorem takes_typeWith {inner : Parser TypeRef} (hi : Takes inner TypeRef.Occupies) :
    Takes (typeWith inner) TypeRef.Occupies := by
  refine Takes.bind (R := fun type spots => type.isNonNull = false ∧ type.Occupies spots) ?_ ?_
  · refine .punctuator_or (fun o ho => hi.bind fun item spots hitem => ?_) ?_
    · exact .punctuator_then fun c hc => .pure ⟨rfl, .list ho hitem hc⟩
    · exact .named fun s name hs => .pure ⟨(TypeRef.plain_ofName name).1, .name hs⟩
  · rintro type spots ⟨hplain, htype⟩
    exact .punctuator_or (fun b hb => .pure (.nonNull hplain htype hb)) (.pure (by simpa))

theorem takes_typeRef : ∀ room : Nat, Takes (typeRef room) TypeRef.Occupies
  | 0 => takes_typeWith .unexpected
  | room + 1 => takes_typeWith (takes_typeRef room)

/-! Arguments and directives. -/

theorem takes_argument (constant : Bool) (room : Nat) :
    Takes (argument constant room) Argument.Occupies :=
  takes_member Argument.mk (takes_value constant room) fun _ _ _ h => h

theorem takes_group {β : Type} {R : β → List Spot → Prop} {item : Parser β}
    (opening close : Punctuator) (hi : Takes item R) :
    Takes (do if ← punctuator? opening then someUpTo close item else return [])
      (Bracketed opening close R) :=
  .punctuator_or (fun _ ho => (Takes.someUpTo close ho hi).mono fun _ _ h => .some h)
    (.pure .none)

theorem takes_arguments (constant : Bool) (room : Nat) : Takes (arguments constant room)
    (Bracketed .openParen .closeParen Argument.Occupies) :=
  takes_group _ _ (takes_argument constant room)

theorem takes_directive (constant : Bool) (room : Nat) :
    Takes (directive constant room) Directive.Occupies :=
  .look looks_location fun _ => .punctuator_then fun _ ha => .named fun _ _ hn =>
    (takes_arguments constant room).bind fun _ _ h => .pure (.mk ha hn (by simpa using h))

theorem takes_directives (constant : Bool) (room : Nat) :
    Takes (directives constant room) (Rows Directive.Occupies) :=
  .whileNext _ (takes_directive constant room)

/-! Selections and executable definitions. -/

theorem takes_defaultValue (room : Nat) :
    Takes (defaultValue room) VariableDefinition.DefaultOccupies :=
  .punctuator_or
    (fun _ he => (takes_value true room).bind fun _ _ h => .pure (.some he (by simpa using h)))
    (.pure .none)

theorem takes_fieldName {first : Spot} {name : String} (hfirst : first.Is (.name name)) :
    Takes (do
      if (← peek?) = some (.punctuator .colon) then
        noComma
        skip
        return (some name, ← anyName)
      else return (none, name) : Parser (Option String × String))
      fun names spots => FieldHead.NameOccupies names.1 names.2 (first :: spots) := by
  refine .peek fun next => .ite (fun hnext => ?_) fun _ => Takes.pure (.plain hfirst) next
  subst hnext
  exact .look looks_noComma fun _ => .skipped fun c hc => .named fun n text hn =>
    .pure (.aliased hfirst hc hn)

theorem takes_selectionWith (room : Nat) {nested : Parser (List (Selection Value))}
    (hn : Takes nested (Enclosed .openBrace .closeBrace Selection.Occupies)) :
    Takes (selectionWith room nested) Selection.Occupies := by
  refine .look looks_location fun location => .punctuator_or (fun e he => ?fragment) ?field
  case fragment =>
    refine .look looks_noComma fun _ => .peek fun next => ?_
    split
    · refine .skipped fun o ho => .named fun n type htype => (takes_directives _ _).bind ?_
      rintro directives _ ⟨parts, hparts, rfl⟩
      refine hn.bind fun selections set hset => .pure ?_
      have h : Selection.Occupies (.inline ⟨some type, directives, location⟩ selections) _ :=
        .inline he (.mk (.some ho htype) hparts) hset
      simpa using h
    · next fragment _ =>
      refine .skipped fun n hname => (takes_directives _ _).bind ?_
      rintro directives _ ⟨parts, hparts, rfl⟩
      have h : Selection.Occupies (.spread ⟨fragment, directives, location⟩) _ :=
        .spread he (.mk hname hparts)
      exact .pure (by simpa using h)
    · refine (takes_directives _ _).bind ?_ _
      rintro directives _ ⟨parts, hparts, rfl⟩
      refine hn.bind fun selections set hset => .pure ?_
      have h : Selection.Occupies (.inline ⟨none, directives, location⟩ selections) _ :=
        .inline he (.mk .none hparts) hset
      simpa using h
  case field =>
    refine .named fun first name hfirst => ?_
    refine (takes_fieldName hfirst).bind fun names spots hnames => ?_
    refine (takes_arguments _ _).bind fun arguments arguments' harguments => ?_
    refine (takes_directives _ _).bind ?_
    rintro directives _ ⟨parts, hparts, rfl⟩
    have hhead : FieldHead.Occupies ⟨names.1, names.2, arguments, directives, location⟩ _ :=
      .mk hnames harguments hparts
    refine (Takes.whenNext _ hn).bind ?_
    rintro _ set (⟨selections, rfl, hset⟩ | ⟨rfl, rfl⟩)
    · have h := Selection.Occupies.field hhead hset
      exact .pure (by simpa using h)
    · have h := Selection.Occupies.leaf hhead
      exact .pure (by simpa using h)

theorem takes_selectionSet : ∀ room : Nat,
    Takes (selectionSet room) (Enclosed .openBrace .closeBrace Selection.Occupies)
  | 0 => .unexpected
  | room + 1 => .punctuator_then fun _ ho =>
    .someUpTo _ ho (takes_selectionWith room (takes_selectionSet room))

theorem takes_variableDefinition : Takes variableDefinition VariableDefinition.Occupies := by
  refine .look looks_location fun location => .punctuator_then fun d hd => ?_
  refine .named fun n name hn => .punctuator_then fun c hc => ?_
  refine (takes_typeRef _).bind fun type spots htype => ?_
  refine (takes_defaultValue _).bind fun default spots' hdefault => ?_
  refine (takes_directives _ _).unread.bind ?_
  rintro directives _ ⟨_, ⟨parts, hparts, rfl⟩, rfl⟩
  have h : VariableDefinition.Occupies ⟨name, type, default, location⟩ _ :=
    .mk hd hn hc htype hdefault hparts
  exact .pure (by simpa using h)

theorem takes_variableDefinitions : Takes variableDefinitions
    (Bracketed .openParen .closeParen VariableDefinition.Occupies) :=
  takes_group _ _ takes_variableDefinition

theorem takes_operationName : Takes name? Operation.NameOccupies := by
  refine Takes.name?.mono ?_
  rintro _ _ (⟨n, name, rfl, hn, rfl⟩ | ⟨rfl, rfl⟩)
  · exact .named hn
  · exact .anonymous

theorem takes_operationBody {kind : OperationKind} {location : Option Location} {k : Spot}
    (hk : k.Is (.name kind.render)) :
    Takes (operationBody kind location) fun o spots => o.Occupies (k :: spots) := by
  refine takes_operationName.bind fun name spots hname => ?_
  refine takes_variableDefinitions.bind fun definitions parameters hparameters => ?_
  refine (takes_directives _ _).bind ?_
  rintro directives _ ⟨parts, hparts, rfl⟩
  refine (takes_selectionSet _).bind fun selections set hset => ?_
  have h : Operation.Occupies ⟨name, kind, definitions, directives, selections, location⟩ _ :=
    .keyword hk hname hparameters hparts hset
  exact .pure (by simpa using h)

theorem takes_fragmentBody (location : Option Location) :
    Takes (fragmentBody location) Fragment.Occupies := by
  refine .peek fun next => .ite (fun _ => .unexpected) fun _ => ?_
  refine Takes.named (fun n name hn => .keyword_then fun o ho => .named fun c condition hc => ?_) _
  refine (takes_directives _ _).bind ?_
  rintro directives _ ⟨parts, hparts, rfl⟩
  refine (takes_selectionSet _).bind fun selections set hset => ?_
  have h : Fragment.Occupies ⟨name, condition, directives, selections, location⟩ _ :=
    .mk hn ho hc hparts hset
  exact .pure (by simpa using h)

theorem takes_shorthand (location : Option Location) :
    Takes (shorthand location) Operation.Occupies :=
  (takes_selectionSet _).bind fun _ _ h =>
    .pure (.shorthand rfl rfl rfl rfl (by simpa using h))

end Grammar

end GraphQL.Syntax
