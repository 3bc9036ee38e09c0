import GraphQL.Proofs.Syntax.Taking

/-!
Whole texts: the tokens of a text are those of its items, one after the other
(`Item.exists_areSpots`).

Of a type system definition only the types are looked for.
-/

set_option autoImplicit false

namespace GraphQL

open Syntax Syntax.Parser

namespace Syntax

theorem Introduces.append {name : String} {ls : List Lexeme} (h : Introduces name ls)
    (first : List Lexeme) : Introduces name (first ++ ls) := by
  cases h with
  | plain before => simpa using plain (first ++ before)
  | parentheses before inner => simpa using parentheses (first ++ before) inner

theorem Declares.of_isInfix {e : String × TypeRef} {spots spots' : List Spot}
    (h : Declares e spots) (hi : spots <:+: spots') : Declares e spots' := by
  obtain ⟨before, part, after, rfl, hbefore, htype⟩ := h
  obtain ⟨first, last, rfl⟩ := hi
  refine ⟨first ++ before, part, after ++ last, by simp, ?_, htype⟩
  rw [List.map_append]
  exact hbefore.append _

/-- A name, a colon and a type. -/
theorem declares_plain {before part after : List Spot} {n c : Spot} {name : String} {type : TypeRef}
    (hn : n.Is (.name name)) (hc : c.Is (.punctuator .colon)) (htype : type.Occupies part) :
    Declares (name, type) (before ++ n :: c :: (part ++ after)) := by
  have h : Introduces name (before.map (fun s => s.token.lexeme) ++ _) := .plain _
  exact ⟨before ++ [n, c], part, after, by simp, by simpa [hn.lexeme, hc.lexeme] using h, htype⟩

end Syntax

theorem Syntax.Bracketed.exists_isInfix {β : Type} {opening closing : Punctuator}
    {R : β → List Spot → Prop} {bs : List β} {spots : List Spot}
    (h : Bracketed opening closing R bs spots) {b : β} (hb : b ∈ bs) :
    ∃ part, R b part ∧ part <:+: spots := by
  cases h with
  | none => cases hb
  | some h => exact h.exists_isInfix hb

namespace Syntax.Grammar

theorem takes_description : Takes description fun _ _ => True := by
  refine .peek fun next => ?_
  split
  · exact .skipped fun _ _ => .pure trivial
  · exact Takes.pure trivial _

theorem takes_schemaDirectives : Takes schemaDirectives fun _ _ => True :=
  (takes_directives _ _).seq fun _ => .pure trivial

theorem takes_inputValue : Takes inputValue fun i spots => Declares i.declared spots := by
  refine takes_description.bind fun _ before _ => .named fun n name hn => ?_
  refine .punctuator_then fun c hc => (takes_typeRef _).bind fun type part htype => ?_
  refine (takes_defaultValue _).bind fun default after _ => ?_
  refine takes_schemaDirectives.bind fun _ last _ => .pure ?_
  have h : Declares (InputValue.declared ⟨name, type, default⟩)
      (before ++ n :: c :: (part ++ (after ++ last))) := declares_plain hn hc htype
  simpa using h

theorem takes_argumentDeclarations : Takes argumentDeclarations
    (Bracketed .openParen .closeParen fun i spots => Declares i.declared spots) :=
  takes_group _ _ takes_inputValue

/-- The type of a field comes after its arguments. -/
theorem declares_field {before between part after : List Spot} {n c : Spot} {name : String}
    {type : TypeRef} {arguments : List (InputValue Value)} {R : InputValue Value → List Spot → Prop}
    (hn : n.Is (.name name)) (hbetween : Bracketed .openParen .closeParen R arguments between)
    (hc : c.Is (.punctuator .colon)) (htype : type.Occupies part) :
    Declares (name, type) (before ++ n :: (between ++ c :: (part ++ after))) := by
  cases hbetween with
  | none => exact declares_plain hn hc htype
  | some henclosed =>
    obtain @⟨o, e, _, parts, ho, -, he⟩ := henclosed
    have h : Introduces name (before.map (fun s => s.token.lexeme) ++ _) :=
      .parentheses _ (parts.flatten.map fun s => s.token.lexeme)
    refine ⟨before ++ n :: o :: (parts.flatten ++ [e, c]), part, after, by simp, ?_, htype⟩
    simpa [hn.lexeme, hc.lexeme, ho.lexeme, he.lexeme] using h

theorem takes_fieldDeclaration :
    Takes fieldDeclaration fun f spots => ∀ e ∈ f.declared, Declares e spots := by
  refine takes_description.bind fun _ before _ => .named fun n name hn => ?_
  refine takes_argumentDeclarations.bind fun arguments between harguments => ?_
  refine .punctuator_then fun c hc => (takes_typeRef _).bind fun type part htype => ?_
  refine takes_schemaDirectives.bind fun _ last _ => .pure (List.forall_mem_cons.2 ⟨?_, ?_⟩)
  · have h : Declares (name, type) (before ++ n :: (between ++ c :: (part ++ last))) :=
      declares_field hn harguments hc htype
    simpa using h
  · intro e hmem
    obtain ⟨argument, hargument, rfl⟩ := List.mem_map.1 hmem
    obtain ⟨part', hpart', hwithin⟩ := harguments.exists_isInfix hargument
    exact (hpart'.of_isInfix hwithin).of_isInfix ⟨before ++ [n], c :: (part ++ last), by simp⟩

theorem takes_nonEmpty {extending something : Bool} {d : Declaration Value} :
    Takes (nonEmpty extending something d) fun found spots => found = d ∧ spots = [] :=
  .ite (fun _ => .unexpected) fun _ => .pure ⟨rfl, rfl⟩

theorem takes_implementsList : Takes implementsList fun _ _ => True :=
  .keyword_or (fun _ _ => .separatedBy _ .anyName) (.pure trivial)

theorem takes_unionMembers : Takes unionMembers fun _ _ => True :=
  .punctuator_or (fun _ _ => .separatedBy _ .anyName) (.pure trivial)

theorem takes_enumValue : Takes enumValue fun _ _ => True := by
  refine takes_description.seq fun _ => .peek fun next => ?_
  split
  · refine .ite (fun _ => .unexpected) fun _ => .skipped fun _ _ => ?_
    exact takes_schemaDirectives.seq fun _ => .pure trivial
  · exact .unexpected

theorem takes_operationKind : Takes operationKind fun _ _ => True :=
  .keyword_or (fun _ _ => .pure trivial) <| .keyword_or (fun _ _ => .pure trivial) <|
    .keyword_then fun _ _ => .pure trivial

theorem takes_rootOperation : Takes rootOperation fun _ _ => True :=
  takes_operationKind.seq fun _ =>
    .punctuator_then fun _ _ => Takes.name?.seq fun _ => .pure trivial

theorem takes_directiveLocation : Takes directiveLocation fun _ _ => True := by
  refine .peek fun next => ?_
  split
  · exact .ite (fun _ => TakesAt.mono .skip fun _ _ _ => trivial) fun _ => .unexpected
  · exact .unexpected

theorem takes_directiveDeclaration : Takes directiveDeclaration fun d _ => d.declared = [] :=
  .punctuator_then fun _ _ => .named fun _ _ _ => takes_argumentDeclarations.seq fun _ =>
    (Takes.optionally _).seq fun _ => .keyword_then fun _ _ =>
      (Takes.separatedBy _ takes_directiveLocation).seq fun _ => .pure rfl

/-- What has fields, and may implement interfaces. -/
theorem takes_compound (extending : Bool)
    {make : String → List String → List (FieldDeclaration Value) → Declaration Value}
    (hmake : ∀ name implements fields,
      (make name implements fields).declared = fields.flatMap (·.declared)) :
    Takes (do
      let name ← anyName
      let implements ← implementsList
      let directed ← schemaDirectives
      let fields ← braced fieldDeclaration
      nonEmpty extending (directed || !implements.isEmpty || !fields.isEmpty)
        (make name implements fields)) Declaration.DeclaresAll := by
  refine .named fun n name _ => takes_implementsList.bind fun implements first _ => ?_
  refine takes_schemaDirectives.bind fun directed second _ => ?_
  refine (takes_group _ _ takes_fieldDeclaration).bind fun fields part hfields => ?_
  refine takes_nonEmpty.mono ?_
  rintro _ _ ⟨rfl, rfl⟩ e hmem
  rw [hmake] at hmem
  obtain ⟨f, hf, he⟩ := List.mem_flatMap.1 hmem
  obtain ⟨part', hpart', hwithin⟩ := hfields.exists_isInfix hf
  exact ((hpart' e he).of_isInfix hwithin).of_isInfix ⟨n :: (first ++ second), [], by simp⟩

theorem takes_input (extending : Bool) : Takes (do
      let name ← anyName
      let directed ← schemaDirectives
      let fields ← braced inputValue
      nonEmpty extending (directed || !fields.isEmpty) (.input name fields))
    Declaration.DeclaresAll := by
  refine .named fun n name _ => takes_schemaDirectives.bind fun directed first _ => ?_
  refine (takes_group _ _ takes_inputValue).bind fun fields part hfields => ?_
  refine takes_nonEmpty.mono ?_
  rintro _ _ ⟨rfl, rfl⟩ e hmem
  obtain ⟨f, hf, rfl⟩ := List.mem_map.1 hmem
  obtain ⟨part', hpart', hwithin⟩ := hfields.exists_isInfix hf
  exact (hpart'.of_isInfix hwithin).of_isInfix ⟨n :: first, [], by simp⟩

/-- The keyword of a declaration comes first. -/
theorem declaration_or {word : String} {p q : Parser (Declaration Value)}
    (hp : Takes p Declaration.DeclaresAll) (hq : Takes q Declaration.DeclaresAll) :
    Takes (do if ← keyword? word then p else q) Declaration.DeclaresAll :=
  .keyword_or (fun s _ => hp.mono fun _ _ h e hmem => (h e hmem).of_isInfix ⟨[s], [], by simp⟩)
    hq

theorem bare {p : Parser (Declaration Value)} (hp : Takes p fun d _ => d.declared = []) :
    Takes p Declaration.DeclaresAll :=
  hp.mono fun d _ hd e hmem => by simp [hd] at hmem

theorem takes_declaration (extending : Bool) :
    Takes (declaration extending) Declaration.DeclaresAll := by
  have hempty : ∀ {strict something : Bool} {d : Declaration Value}, d.declared = [] →
      Takes (nonEmpty strict something d) fun found _ => found.declared = [] :=
    fun hd => takes_nonEmpty.mono fun _ _ h => h.1 ▸ hd
  refine declaration_or (bare ?schema) (declaration_or (bare ?scalar) (declaration_or
    (takes_compound _ fun _ _ _ => rfl) (declaration_or (takes_compound _ fun _ _ _ => rfl)
    (declaration_or (bare ?union) (declaration_or (bare ?enum) (declaration_or (takes_input _)
    (.ite (fun _ => .unexpected) fun _ => bare ?directive)))))))
  case schema =>
    refine takes_schemaDirectives.seq fun _ => .ite (fun _ => ?_) fun _ => ?_
    · exact (takes_group _ _ takes_rootOperation).seq fun _ => .pure rfl
    · refine Takes.seq (R := fun _ _ => True) ?_ fun _ => hempty rfl
      exact .punctuator_or (fun _ ho => (Takes.upTo _ ho takes_rootOperation).any) (.pure trivial)
  case scalar =>
    exact .named fun _ _ _ => takes_schemaDirectives.seq fun _ => hempty rfl
  case union =>
    exact .named fun _ _ _ => takes_schemaDirectives.seq fun _ =>
      takes_unionMembers.seq fun _ => hempty rfl
  case enum =>
    exact .named fun _ _ _ => takes_schemaDirectives.seq fun _ =>
      (takes_group _ _ takes_enumValue).seq fun _ => hempty rfl
  case directive => exact .keyword_then fun _ _ => takes_directiveDeclaration

/-- What comes before a declaration is not read either. -/
theorem takes_schema {extends? : Bool} {p : Parser (Declaration Value)} {l : Lexeme} {s : Spot}
    (hp : Takes p Declaration.DeclaresAll) (hs : s.Is l) :
    Takes (do return .schema ⟨extends?, ← p⟩ : Parser Item) fun i spots =>
      i.Occupies (s :: spots) := by
  refine hp.unread.bind ?_
  rintro d _ ⟨read, hread, rfl⟩
  have h : Item.Occupies (.schema ⟨extends?, d⟩) ((s :: read).map Spot.unread) :=
    .schema fun e hmem => (hread e hmem).of_isInfix ⟨[s], [], by simp⟩
  exact .pure (by simpa [hs.unread_eq] using h)

theorem takes_operation (kind : OperationKind) {location : Option Location} {k : Spot}
    (hk : k.Is (.name kind.render)) :
    Takes (do return .executable (.operation (← operationBody kind location)) : Parser Item)
      fun i spots => i.Occupies (k :: spots) :=
  (takes_operationBody hk).bind fun _ _ h => .pure (.operation (by simpa using h))

theorem takes_fragment {location : Option Location} {k : Spot} {l : Lexeme} (hl : Fragment.Opens l)
    (hk : k.Is l) :
    Takes (do return .executable (.fragment (← fragmentBody location)) : Parser Item)
      fun i spots => i.Occupies (k :: spots) :=
  (takes_fragmentBody _).bind fun _ _ h => .pure (.fragment hl hk (by simpa using h))

theorem takes_item : Takes Item.grammar Item.Occupies := by
  refine .look looks_location fun location => .peek fun next => ?_
  split
  · refine .skipped fun s hs => .look looks_noComma fun _ => .peek fun next => ?_
    exact .ite (fun _ => takes_fragment (.description _) hs _)
      fun _ => takes_schema (takes_declaration false) hs _
  · exact Takes.bind (takes_shorthand _) (fun o spots h => .pure (.operation (by simpa using h))) _
  · have hother : Takes (do return .schema ⟨false, ← declaration false⟩ : Parser Item)
        Item.Occupies := by
      refine (takes_declaration false).unread.bind ?_
      rintro d _ ⟨read, hread, rfl⟩
      exact .pure (by simpa using Item.Occupies.schema hread)
    have hextension : ∀ s, Spot.Is s (.name "extend") → Takes
        (do
          noComma
          return .schema ⟨true, ← declaration true⟩ : Parser Item)
        fun i spots => i.Occupies (s :: spots) :=
      fun s hs => .look looks_noComma fun _ => takes_schema (takes_declaration true) hs
    exact Takes.keyword_or (fun _ => takes_operation .query)
      (.keyword_or (fun _ => takes_operation .mutation)
        (.keyword_or (fun _ => takes_operation .subscription)
          (.keyword_or (fun _ => takes_fragment .keyword) (.keyword_or hextension hother)))) _

end Syntax.Grammar

theorem Syntax.Item.takes_all : Takes Item.all (Rows Item.Occupies) := by
  refine Grammar.takes_item.bind fun first spots hfirst => ?_
  refine (Takes.manyUntil _ Grammar.takes_item).bind ?_
  rintro items _ ⟨parts, hparts, rfl⟩
  exact .pure ⟨spots :: parts, .cons hfirst hparts, by simp⟩

theorem Syntax.Item.exists_areSpots {text : String} {items : List Item}
    (h : parse text = .ok items) : ∃ spots, AreSpots spots text := by
  obtain ⟨tokens, ht, hall⟩ := bind_eq_ok_iff.1 h
  obtain ⟨⟨found, rest⟩, hfound, hend⟩ := bind_eq_ok_iff.1 hall
  obtain ⟨spots, htokens, parts, hparts, hspots⟩ := takes_all _ tokens found rest rfl hfound
  cases rest with
  | nil =>
    cases hend
    rw [List.append_nil] at htokens
    exact ⟨spots, items, parts, h, hparts, hspots, htokens ▸ ht⟩
  | cons => cases hend

end GraphQL
