import GraphQL.Proofs.Document.Lowering
import GraphQL.Proofs.Schema.Loaded
import GraphQL.Proofs.Syntax.TypeNotation

/-!
Types in texts, as variables and fields declare them: a type is read from its notation, and what
was read is written as it stands in the text, less what means nothing there
(`TypeRef.notation_reads_back`).
-/

set_option autoImplicit false

namespace GraphQL

open Syntax Syntax.Parser Syntax.Grammar

namespace Syntax

/-! A type definition with one field. -/

section

variable {us : List Word}

theorem Parser.Reads.keyword?_absent {text : String}
    (h : us.head?.map Word.lexeme ≠ some (.name text)) :
    Reads (Parser.keyword? text) [] us (· = false) := by
  refine Reads.peek?.look fun l hl => .ite_neg ?_ (.pure rfl)
  rwa [hl]

theorem Grammar.reads_noDescription
    (h : ∀ contents, us.head?.map Word.lexeme ≠ some (.string contents)) :
    Reads description [] us fun _ => True := by
  refine Reads.peek?.look fun l hl => ?_
  split
  · exact absurd hl.symm (h _)
  · exact .pure trivial

theorem Grammar.reads_noDirectives (h : Clear [.at] us) :
    Reads schemaDirectives [] us (· = false) := by
  have hmany : Reads (directives true nestingLimit) [] us
      (List.Forall₂ (fun (_ : Unit) _ => True) []) :=
    Reads.whileNext (R := fun _ _ => False) [] .nil nofun nofun nofun h
  refine hmany.look fun ds hds => .pure ?_
  cases hds
  rfl

theorem Grammar.reads_fieldDeclaration {t : TypeRef} (ht : t.Written nestingLimit t.words)
    (name : String) (hus : Clear [.bang, .at] us) :
    Reads fieldDeclaration (word name :: sign .colon :: t.words) us (⟨name, t, []⟩ = ·) := by
  refine (reads_noDescription (by rintro _ ⟨⟩)).look fun _ _ => .named ?_
  refine Reads.look (P := (· = [])) (.punctuator_else (.sign (by decide)) (.pure rfl)) ?_
  rintro _ rfl
  refine (Reads.punctuator .colon false).cons fun _ _ => ?_
  refine (reads_typeRef _ ht (hus.mono (by decide))).last ?_
  rintro _ rfl
  exact (reads_noDirectives (hus.mono (by decide))).last fun _ _ => .pure rfl

/-- The words of an object type with one field. -/
def fieldWords (object field : String) (t : TypeRef) : List Word :=
  word "type" :: word object :: sign .openBrace ::
    (word field :: sign .colon :: t.words ++ [sign .closeBrace])

theorem Grammar.reads_object {object field : String} {t : TypeRef}
    (ht : t.Written nestingLimit t.words) :
    Reads (declaration false) (fieldWords object field t) us
      (.object object [] [⟨field, t, []⟩] = ·) := by
  refine .keyword_else (by decide) (.keyword_else (by decide) (.keyword_then (.named ?_)))
  have himplements : Reads implementsList [] (sign .openBrace ::
      (word field :: sign .colon :: t.words ++ [sign .closeBrace]) ++ us) (· = []) :=
    (Reads.keyword?_absent (by rintro ⟨⟩)).look fun _ h => .ite_neg (by simp [h]) (.pure rfl)
  have hfields : Reads (braced fieldDeclaration) (sign .openBrace ::
      (word field :: sign .colon :: t.words ++ [sign .closeBrace])) us
      (List.Forall₂ (· = ·) [⟨field, t, []⟩]) := by
    have hmany : Many (fun (f : FieldDeclaration Value) ws =>
        ws = word f.name :: sign .colon :: f.type.words) [⟨field, t, []⟩]
        (word field :: sign .colon :: t.words ++ []) := .cons rfl .nil
    rw [List.append_nil] at hmany
    refine .punctuator_then (Reads.someUpTo [.bang, .at] ?_ ?_ (by decide) hmany
      (List.cons_ne_nil _ _))
    · intro f hf ws us hws hclear
      obtain rfl := List.mem_singleton.1 hf
      exact hws ▸ reads_fieldDeclaration ht field hclear
    · intro f ws us hws
      exact hws ▸ .name
  refine himplements.look ?_
  rintro _ rfl
  refine (reads_noDirectives (.sign (by decide))).look ?_
  rintro _ rfl
  refine hfields.last ?_
  intro fields hfields
  rw [List.forall₂_eq_eq_eq] at hfields
  subst hfields
  exact .ite_neg Bool.false_ne_true (.pure rfl)

theorem Item.reads_object {object field : String} {t : TypeRef}
    (ht : t.Written nestingLimit t.words) : Reads grammar (fieldWords object field t) us
      (.schema ⟨false, .object object [] [⟨field, t, []⟩]⟩ = ·) := by
  refine Reads.location.look fun location _ => Reads.peek?.look fun l hl => ?_
  cases hl
  refine .keyword_else (by decide) (.keyword_else (by decide) (.keyword_else (by decide)
    (.keyword_else (by decide) (.keyword_else (by decide) ?_))))
  refine (Grammar.reads_object ht).last ?_
  rintro _ rfl
  exact .pure rfl

/-- A text that is nothing but one item. -/
theorem Item.parse_of_reads {ws : List Word} {item : Item} {text : String}
    (h : Reads grammar ws [] (item = ·)) (htext : Laid ws text.toList) :
    parse text = .ok [item] := by
  obtain ⟨tokens, htokens, hbears⟩ := Token.ofText_of_laid htext
  obtain ⟨_, rest, hitem, hrest, rfl⟩ := h tokens (by rwa [List.append_nil])
  cases hrest
  have hall : all tokens = .ok ([item], []) := by
    refine bind_eq_ok_iff.2 ⟨(item, []), hitem, bind_eq_ok_iff.2 ⟨([], []), ?_, rfl⟩⟩
    rw [manyUntil]
    rfl
  exact bind_eq_ok_iff.2 ⟨tokens, htokens, bind_eq_ok_iff.2 ⟨([item], []), hall, rfl⟩⟩

end

end Syntax

/-- The shortest text with these words. -/
def Syntax.fieldText (object field : String) (t : TypeRef) : String :=
  "type " ++ object ++ "\x7b" ++ field ++ ":" ++ t.render ++ "\x7d"

theorem Syntax.laid_fieldText {object field : String} {t : TypeRef} (ho : IsName object)
    (hf : IsName field) (ht : t.Named) :
    Laid (fieldWords object field t) (fieldText object field t).toList := by
  have htext : (fieldText object field t).toList = "type".toList ++ ' ' ::
      (object.toList ++ '\x7b' :: (field.toList ++ ':' :: (t.render.toList ++ ['\x7d']))) := by
    simp [fieldText]
  rw [htext]
  refine .name (by decide) rfl (.space (.name ho rfl (.punctuator (.name hf rfl (.punctuator ?_)))))
  exact TypeRef.laid_render ht (by rintro _ ⟨⟩; rfl) (.punctuator .nil)

theorem Schema.type?_addDefaultRoot (schema : Schema) (kind : OperationKind) (name : String) :
    (schema.addDefaultRoot kind).type? name = schema.type? name := by
  unfold Schema.addDefaultRoot
  split <;> rfl

/-- An object type that has no more than the one field is read as such. -/
theorem Schema.parse_of_laid {object field : String} {t : TypeRef} {text : String}
    (ht : t.Written nestingLimit t.words) (htext : Laid (fieldWords object field t) text.toList) :
    ∃ schema, Schema.parse text = .ok schema ∧
      schema.type? object = some (.object ⟨object, [], [(field, ⟨field, t, [], none⟩)]⟩) := by
  have hparse := Item.parse_of_reads (Item.reads_object ht) htext
  refine ⟨[OperationKind.query, .mutation, .subscription].foldl addDefaultRoot (builtin.addType
    (.object ⟨object, [], [(field, ⟨field, t, [], none⟩)]⟩)), ?_, ?_⟩
  · rw [Schema.parse, hparse]
    rfl
  · simp only [List.foldl_cons, List.foldl_nil, type?_addDefaultRoot]
    exact (type?_addType _ _ _).trans (if_pos rfl)

/-- A query with one variable and one field. -/
def Operation.ofVariable (parameter field : String) (t : TypeRef) : Operation Literal :=
  ⟨none, .query, [⟨parameter, t, none, none⟩], [], [.field ⟨none, field, [], [], none⟩ []], none⟩

def Syntax.variableWords (parameter field : String) (t : TypeRef) : List Word :=
  word "query" :: sign .openParen :: sign .dollar :: word parameter :: sign .colon ::
    (t.words ++ [sign .closeParen, sign .openBrace, word field, sign .closeBrace])

/-- The shortest text with these words. -/
def Syntax.variableText (parameter field : String) (t : TypeRef) : String :=
  "query($" ++ parameter ++ ":" ++ t.render ++ ")\x7b" ++ field ++ "\x7d"

theorem Syntax.laid_variableText {parameter field : String} {t : TypeRef} (hp : IsName parameter)
    (hf : IsName field) (ht : t.Named) :
    Laid (variableWords parameter field t) (variableText parameter field t).toList := by
  have htext : (variableText parameter field t).toList = "query".toList ++ '(' :: '$' ::
      (parameter.toList ++ ':' :: (t.render.toList ++ ')' :: '\x7b' ::
        (field.toList ++ ['\x7d']))) := by
    simp [variableText]
  rw [htext]
  refine .name (by decide) rfl (.punctuator (.punctuator (.name hp rfl (.punctuator ?_))))
  refine TypeRef.laid_render ht (by rintro _ ⟨⟩; rfl) (.punctuator (.punctuator ?_))
  exact .name hf rfl (.punctuator .nil)

theorem Operation.written_ofVariable {parameter field : String} {t : TypeRef}
    (ht : t.Written nestingLimit t.words) (hp : IsName parameter) (hf : IsName field) :
    (ofVariable parameter field t).Written (variableWords parameter field t) := by
  have hdefinition : VariableDefinition.Written ⟨parameter, t, none, none⟩ _ :=
    .mk hp ht .none .nil
  have hfield : Selection.Written 499 (Selection.SetWritten 499)
      (.field ⟨none, field, [], [], none⟩ []) _ := .leaf (.mk (.plain hf) .none .nil)
  have h : (ofVariable parameter field t).Written _ :=
    .keyword .anonymous (.some (.cons hdefinition .nil)) .nil
      ⟨List.cons_ne_nil _ _, _, .cons hfield .nil, rfl⟩
  simpa [variableWords, ofVariable, OperationKind.render] using h

/-- The query is read with its variable. -/
theorem Document.parse_of_laid {parameter field : String} {t : TypeRef} {text : String}
    (ht : t.Written nestingLimit t.words) (hp : IsName parameter) (hf : IsName field)
    (htext : Laid (variableWords parameter field t) text.toList) :
    ∃ o, Document.parse text = .ok ⟨[("", o)], []⟩ ∧
      o.variableDefinitions.map (fun v => (v.name, v.type)) = [(parameter, t)] := by
  have hwritten : Many Definition.Written [.operation (Operation.ofVariable parameter field t)]
      (variableWords parameter field t ++ []) :=
    .cons (Operation.written_ofVariable ht hp hf) .nil
  rw [List.append_nil] at hwritten
  obtain ⟨items, hitems, hholds⟩ :=
    Item.holds_of_isText ⟨List.cons_ne_nil _ _, _, hwritten, htext⟩
  obtain ⟨found, hfound, hunlocated⟩ := Document.ofItems_of_holds hholds
  obtain ⟨d, found, rfl, hd, hrest⟩ := List.map_eq_cons_iff.1 hunlocated
  obtain rfl := List.map_eq_nil_iff.1 hrest
  cases d with
  | fragment => cases hd
  | operation o =>
    have ho := Definition.operation.inj hd
    have hname : o.name = none := congrArg Operation.name ho
    have hvariables := congrArg (fun o => o.variableDefinitions.map fun v => (v.name, v.type)) ho
    refine ⟨o, ?_, ?_⟩
    · simp only [Document.parse, hitems, hfound, ofDefinitions, List.foldl_cons, List.foldl_nil,
        add, hname]
      rfl
    · simpa [Operation.unlocated, Operation.ofVariable, VariableDefinition.unlocated,
        Function.comp_def] using hvariables

/-! The source of a type. -/

theorem Syntax.Spot.Is.unread {s : Spot} {l : Lexeme} (h : s.Is l) : s.unread.Is l :=
  ⟨h.lexeme, rfl⟩

theorem TypeRef.Occupies.unread {t : TypeRef} {spots : List Spot} (h : t.Occupies spots) :
    t.Occupies (spots.map Spot.unread) := by
  induction h with
  | name hs => exact .name hs.unread
  | list ho _ hc ih => simpa using Occupies.list ho.unread ih hc.unread
  | nonNull hplain _ hb ih => simpa using Occupies.nonNull hplain ih hb.unread

theorem Syntax.Declares.unread {e : String × TypeRef} {spots : List Spot} (h : Declares e spots) :
    Declares e (spots.map Spot.unread) := by
  obtain ⟨before, part, after, rfl, hbefore, htype⟩ := h
  refine ⟨before.map Spot.unread, part.map Spot.unread, after.map Spot.unread, by simp, ?_,
    htype.unread⟩
  simpa [Function.comp_def] using hbefore

theorem VariableDefinition.declares {v : VariableDefinition Value} {spots : List Spot}
    (h : v.Occupies spots) : Declares (v.name, v.type) spots := by
  cases h with
  | @mk d n c type _ _ _ hd hn hc htype =>
    have h : ∀ after, Declares (v.name, v.type) ([d] ++ n :: c :: (type ++ after)) :=
      fun _ => declares_plain hn hc htype
    exact h _

theorem Syntax.Item.declares {i : Item} {spots : List Spot} (h : i.Occupies spots)
    {e : String × TypeRef} (he : e ∈ i.declared) : Declares e spots := by
  cases h with
  | operation ho =>
    obtain ⟨v, hv, rfl⟩ := List.mem_map.1 he
    cases ho with
    | shorthand _ _ hnone =>
      rw [hnone] at hv
      cases hv
    | @keyword k name parameters selections directives hk _ hparameters =>
      obtain ⟨part, hpart, hwithin⟩ := hparameters.exists_isInfix hv
      exact (VariableDefinition.declares hpart).of_isInfix (hwithin.trans
        ⟨k :: name, directives.flatten ++ selections, by simp⟩)
  | fragment => cases he
  | schema hi => exact (hi e he).unread

/-- The tokens of `part`, which in the text come after `before`, are read from these characters. -/
def Syntax.Token.ReadFrom (text : String) (before part after : List Token) (source : List Char) :
    Prop :=
  ∃ pre post i j, text.toList = pre ++ (source ++ post) ∧
    ofText text = .ok (before ++ (part ++ after)) ∧
    scan (LineIndex.ofText text) i false (source ++ post) = .ok (part ++ after) ∧
    scan (LineIndex.ofText text) j false post = .ok after

theorem Syntax.Token.exists_source {text : String} {before part after : List Token} {ws : List Word}
    (h : ofText text = .ok (before ++ (part ++ after))) (hbefore : before ≠ [])
    (hws : ∀ w ∈ ws, w.lexeme.IsWord ∧ w.joined = false) (hne : ws ≠ [])
    (hpart : part.map Token.lexeme = ws.map Word.lexeme) :
    ∃ source, ReadFrom text before part after source ∧ Laid ws source := by
  rcases List.eq_nil_or_concat' before with rfl | ⟨first, t, rfl⟩
  · exact absurd rfl hbefore
  have htokens : first ++ [t] ++ (part ++ after) = first ++ t :: (part ++ after) := by simp
  obtain ⟨pre, rest, i, htext, hrest⟩ := (Scans.of_scan h).split htokens
  obtain ⟨source, post, j, rfl, hlaid, hpost⟩ :=
    (Scans.of_scan hrest).exists_laid hws hne hpart rfl
  exact ⟨source, ⟨pre, post, i, j, htext, h, hrest, hpost⟩, hlaid⟩

theorem Syntax.Introduces.ne_nil {name : String} {ls : List Lexeme} (h : Introduces name ls) :
    ls ≠ [] := by
  intro hnil
  cases h <;> simp at hnil

theorem TypeRef.words_ne_nil (t : TypeRef) : t.words ≠ [] := by
  cases t <;> simp [words]

/-- The source of a type that is declared in a text. -/
theorem Syntax.Item.exists_source {text : String} {items : List Item}
    (h : parse text = .ok items) {i : Item} (hi : i ∈ items) {e : String × TypeRef}
    (he : e ∈ i.declared) : ∃ before part after source,
      Token.ReadFrom text before part after source ∧ Introduces e.1 (before.map Token.lexeme) ∧
      Laid e.2.words source := by
  obtain ⟨spots, items', parts, hparse, hparts, rfl, htokens⟩ := exists_areSpots h
  cases h.symm.trans hparse
  obtain ⟨own, hmem, hown⟩ := exists_of_forall₂ hparts hi
  obtain ⟨before, part, after, hspots, hbefore, htype⟩ :=
    (declares hown he).of_isInfix (List.infix_of_mem_flatten hmem)
  rw [hspots, List.map_append, List.map_append] at htokens
  have hintroduces : Introduces e.1 ((before.map Spot.token).map Token.lexeme) := by
    simpa [Function.comp_def] using hbefore
  have hpart : (part.map Spot.token).map Token.lexeme = e.2.words.map Word.lexeme := by
    simpa [Function.comp_def] using TypeRef.lexemes_of_occupies htype
  have hne : before.map Spot.token ≠ [] := fun hnil => hintroduces.ne_nil (by rw [hnil]; rfl)
  obtain ⟨source, hsource, hlaid⟩ := Token.exists_source htokens hne
    TypeRef.isWord_of_mem_words (TypeRef.words_ne_nil e.2) hpart
  exact ⟨_, _, _, source, hsource, hintroduces, hlaid⟩

namespace TypeRef

/-- A type is read back from its notation, however the notation is laid out in a text, as the type
of a variable and as that of a field; and every type that is read from a text is written as its
source in the text, less what means nothing. -/
theorem notation_reads_back :
    (∀ t : TypeRef, t.Plain → t.Named → t.depth ≤ nestingLimit →
      ∀ name field, IsName name → IsName field →
        (Laid (variableWords name field t) (variableText name field t).toList ∧
          ∀ text, Laid (variableWords name field t) text.toList →
            ∃ o, Document.parse text = .ok ⟨[("", o)], []⟩ ∧
              o.variableDefinitions.map (fun v => (v.name, v.type)) = [(name, t)]) ∧
        Laid (fieldWords name field t) (fieldText name field t).toList ∧
          ∀ text, Laid (fieldWords name field t) text.toList →
            ∃ schema, Schema.parse text = .ok schema ∧
              schema.type? name = some (.object ⟨name, [], [(field, ⟨field, t, [], none⟩)]⟩)) ∧
    ∀ text items, Item.parse text = .ok items → ∀ i ∈ items, ∀ e ∈ i.declared,
      ∃ before part after source, Token.ReadFrom text before part after source ∧
        Introduces e.1 (before.map Token.lexeme) ∧ Laid e.2.words source ∧
        String.ofList (significant false source) = e.2.render := by
  constructor
  · intro t hplain hnamed hdepth name field hname hfield
    have hwritten := written_words hplain hnamed nestingLimit hdepth
    exact ⟨⟨laid_variableText hname hfield hnamed, fun _ =>
      Document.parse_of_laid hwritten hname hfield⟩, laid_fieldText hname hfield hnamed, fun _ =>
      Schema.parse_of_laid hwritten⟩
  · intro text items hparse i hi e he
    obtain ⟨before, part, after, source, hsource, hbefore, hlaid⟩ :=
      Item.exists_source hparse hi he
    refine ⟨before, part, after, source, hsource, hbefore, hlaid, ?_⟩
    rw [significant_laid hlaid fun w hw => (isWord_of_mem_words w hw).1, chars_words,
      String.ofList_toList]

/-- Lists of identifiers that are not null. -/
def keys : TypeRef := .list (.list (.nonNull .id))

def keysText : String := "type T,\x7bk:[\n[ID # not null\n!],]\x7d"

theorem notation_reads_back_keys : keys.Plain ∧ keys.Named ∧ keys.depth ≤ nestingLimit ∧
    IsName "T" ∧ IsName "k" ∧ Laid (fieldWords "T" "k" keys) keysText.toList ∧
    (∃ schema, Schema.parse keysText = .ok schema ∧
      schema.type? "T" = some (.object ⟨"T", [], [("k", ⟨"k", keys, [], none⟩)]⟩)) ∧
    ∃ before part after source, Token.ReadFrom keysText before part after source ∧
      Introduces "k" (before.map Token.lexeme) ∧ Laid keys.words source ∧
      String.ofList (significant false source) = "[[ID!]]" := by
  have hplain : keys.Plain := ⟨rfl, trivial⟩
  have hdepth : keys.depth ≤ nestingLimit := by decide
  have hwritten := written_words hplain trivial nestingLimit hdepth
  have hlaid : Laid (fieldWords "T" "k" keys) keysText.toList := by
    have htext : keysText.toList = "type".toList ++ ' ' :: ("T".toList ++ ',' :: '\x7b' ::
      ("k".toList ++ ':' :: '[' :: '\n' :: '[' :: ("ID".toList ++ ' ' :: '#' ::
        (" not null".toList ++ ['\n', '!', ']', ',', ']', '\x7d'])))) := by decide
    rw [htext]
    refine .name (by decide) rfl (.space (.name (by decide) rfl (.comma (by rintro _ ⟨⟩; rfl) ?_)))
    refine .punctuator (.name (by decide) rfl (.punctuator (.punctuator ?_)))
    refine .blank rfl (by decide) (.punctuator (.name (by decide) rfl (.space ?_)))
    refine .comment (by simp [StringValue.isLineEnd]) (by simp [StringValue.isLineEnd]) ?_
    refine .blank rfl (by decide) (.punctuator (.punctuator (.comma (by rintro _ ⟨⟩; rfl) ?_)))
    exact .punctuator (.punctuator .nil)
  have hparse := Item.parse_of_reads (Item.reads_object hwritten) hlaid
  have hread := (notation_reads_back.1 keys hplain trivial hdepth "T" "k" (by decide)
    (by decide)).2.2 keysText hlaid
  have hsource := notation_reads_back.2 keysText _ hparse _ List.mem_cons_self ("k", keys)
    List.mem_cons_self
  exact ⟨hplain, trivial, hdepth, by decide, by decide, hlaid, hread, hsource⟩

end TypeRef

end GraphQL
