import GraphQL.Proofs.Syntax.Reading

/-!
What the grammar makes of the words of selections and of whole definitions: definitions alike to
those that were written, with values that denote the literals in them.
-/

set_option autoImplicit false

namespace GraphQL.Syntax

/-- The next word is a punctuator. -/
def Signed (us : List Word) : Prop := ∃ p vs, us = sign p :: vs

section

variable {β V : Type} {ws us : List Word} {ps : List Punctuator}

theorem clear_group {opening closing : Punctuator} {R : β → List Word → Prop} {bs : List β}
    (h : Group opening closing R bs ws) (hps : opening ∉ ps) (hus : Clear ps us) :
    Clear ps (ws ++ us) := by
  cases h with
  | none => exact hus
  | some => exact .sign hps

theorem signed_group {opening closing : Punctuator} {R : β → List Word → Prop} {bs : List β}
    (h : Group opening closing R bs ws) (hus : Signed us) : Signed (ws ++ us) := by
  cases h with
  | none => exact hus
  | some => exact ⟨_, _, rfl⟩

theorem clear_directives {R : V → List Word → Prop} {ds : List (Directive V)}
    (h : Many (Directive.Written R) ds ws) (hps : .at ∉ ps) (hus : Clear ps us) :
    Clear ps (ws ++ us) := by
  cases h with
  | nil => exact hus
  | cons hd =>
    cases hd with
    | mk => exact .sign hps

theorem signed_directives {R : V → List Word → Prop} {ds : List (Directive V)}
    (h : Many (Directive.Written R) ds ws) (hus : Signed us) : Signed (ws ++ us) := by
  cases h with
  | nil => exact hus
  | cons hd =>
    cases hd with
    | mk => exact ⟨_, _, rfl⟩

theorem joined_joinFirst (h : ws ≠ []) : ∀ w ∈ (joinFirst ws ++ us).head?, w.joined = true := by
  cases ws with
  | nil => exact absurd rfl h
  | cons w ws =>
    rintro _ ⟨⟩
    rfl

theorem bears_joinFirst {tokens : List Token} (h : List.Forall₂ Token.Bears tokens (joinFirst ws)) :
    List.Forall₂ Token.Bears tokens ws := by
  cases ws with
  | nil => exact h
  | cons w ws =>
    cases h with
    | cons hbears hrest => exact .cons ⟨hbears.1, fun _ => hbears.2 rfl⟩ hrest

end

namespace Grammar

open Syntax.Parser
open Literal (DenotedBy)

variable {us ws vs : List Word} {room : Nat}

theorem reads_joinFirst {α : Type} {p : Parser α} {P : α → Prop} (h : Reads p ws us P) :
    Reads p (joinFirst ws) us P := by
  intro tokens ht
  refine h tokens ?_
  cases ws with
  | nil => exact ht
  | cons w ws =>
    have hjoined : List.Forall₂ Token.Bears tokens (joinFirst (w :: (ws ++ us))) := ht
    exact bears_joinFirst hjoined

theorem reads_spread {nested : Parser (List (Selection Value))} {s : Spread Literal}
    (h : s.Written room ws)
    (hus : Clear [.at, .openParen] us) :
    Reads (selectionWith room nested) (sign .spread :: joinFirst ws) us
      ((Selection.spread s).Alike DenotedBy) := by
  obtain ⟨fragment, directives, _⟩ := s
  cases h with
  | @mk directiveWords hname hon hdirectives =>
    refine Reads.location.look fun location _ => ?_
    refine .punctuator_then ((Reads.noComma ?_).look fun _ _ => ?_)
    · rintro _ ⟨⟩
      rfl
    refine reads_joinFirst (Reads.peek?.look ?_)
    rintro _ rfl
    split
    · next heq =>
      cases heq
      exact absurd rfl hon
    · next heq =>
      cases heq
      exact .skipped ((reads_literalDirectives hdirectives hus).last
        fun ds hds => .pure (.spread ⟨rfl, hds⟩))
    · next hother => exact absurd rfl (hother fragment)

/-- An alias is told by its colon. -/
theorem reads_names {alias? : Option String} {name : String} {γ : Type}
    {next : Option String × String → Parser γ} {Q : γ → Prop}
    (h : FieldHead.NameWritten alias? name ws) (hvs : Clear [.colon] (vs ++ us))
    (hnext : Reads (next (alias?, name)) vs us Q) :
    Reads (do
      let first ← anyName
      let names ← (do
        if (← peek?) = some (.punctuator .colon) then
          noComma
          skip
          return (some first, ← anyName)
        else return (none, first) : Parser (Option String × String))
      next names) (ws ++ vs) us Q := by
  cases h with
  | plain hname =>
    refine .named (Reads.look (P := ((none, name) = ·)) (Reads.peek?.look fun l hl => ?_) ?_)
    · refine .ite_neg ?_ (.pure rfl)
      rw [hl]
      exact hvs .colon List.mem_cons_self
    · rintro _ rfl
      exact hnext
  | @aliased «alias» _ halias hname =>
    refine .named (Reads.bind (show Reads _ [⟨.punctuator .colon, true⟩, word name] _
      ((some «alias», name) = ·) from Reads.peek?.look fun l hl => ?_) ?_)
    · refine .ite_pos hl ((Reads.noComma ?_).look fun _ _ => .skipped (.named (.pure rfl)))
      rintro _ ⟨⟩
      rfl
    · rintro _ rfl
      exact hnext

section

variable {nested : Parser (List (Selection Value))}
  {N : List (Selection Literal) → List Word → Prop}
  (hN : ∀ ss ws, N ss ws → ∃ vs, ws = sign .openBrace :: vs)
  (hnested : ∀ ss ws us, N ss ws → Reads nested ws us (List.Forall₂ (Selection.Alike DenotedBy) ss))

include hN hnested

/-- The selections of a field, if it has any. -/
theorem reads_selections {ss : List (Selection Literal)} (h : ss = [] ∧ ws = [] ∨ N ss ws)
    (hus : Clear [.openBrace] us) : Reads (whenNext (.punctuator .openBrace) nested) ws us
      fun found => List.Forall₂ (Selection.Alike DenotedBy) ss (found.getD []) := by
  refine Reads.peek?.look fun l hl => ?_
  rcases h with ⟨rfl, rfl⟩ | h
  · refine .ite_neg ?_ (.pure .nil)
    rw [hl]
    exact hus .openBrace List.mem_cons_self
  · obtain ⟨vs, rfl⟩ := hN ss ws h
    exact .ite_pos hl ((hnested ss _ us h).last fun _ hss => .pure hss)

theorem reads_field {head : FieldHead Literal} {ss : List (Selection Literal)}
    (hhead : head.Written room ws) (hss : ss = [] ∧ vs = [] ∨ N ss vs)
    (hus : Clear [.colon, .openParen, .at, .openBrace] us) :
    Reads (selectionWith room nested) (ws ++ vs) us
      ((Selection.field head ss).Alike DenotedBy) := by
  obtain ⟨alias?, name, arguments, directives, place⟩ := head
  cases hhead with
  | @mk names argumentWords directiveWords hnames harguments hdirectives =>
    have hvs : ∀ ps ⊆ [Punctuator.colon, .openParen, .at], Clear ps (vs ++ us) := by
      intro ps hps
      rcases hss with ⟨rfl, rfl⟩ | hss
      · exact hus.mono (List.Subset.trans hps (by decide))
      · obtain ⟨vs, rfl⟩ := hN ss vs hss
        exact .sign fun h => absurd (hps h) (by decide)
    have hdirectiveWords : ∀ ps ⊆ [Punctuator.colon, .openParen],
        Clear ps (directiveWords ++ vs ++ us) := by
      intro ps hps
      rw [List.append_assoc]
      exact clear_directives hdirectives (fun h => absurd (hps h) (by decide))
        (hvs ps (List.Subset.trans hps (by decide)))
    have hargumentWords : Clear [.colon] (argumentWords ++ (directiveWords ++ vs) ++ us) := by
      rw [List.append_assoc]
      exact clear_group harguments (by decide) (hdirectiveWords _ (by decide))
    have hname : Clear [.spread] (names ++ (argumentWords ++ (directiveWords ++ vs)) ++ us) := by
      cases hnames <;> exact .name
    rw [List.append_assoc, List.append_assoc]
    refine Reads.location.look fun location _ => .punctuator_else hname ?_
    refine reads_names hnames hargumentWords ?_
    exact (reads_literalArguments harguments (hdirectiveWords _ (by decide))).bind fun as has =>
      (reads_literalDirectives hdirectives (hvs _ (by decide))).bind fun ds hds =>
        (reads_selections hN hnested hss (hus.mono (by decide))).last fun found hfound =>
          .pure (.field ⟨rfl, rfl, has, hds⟩ hfound)

theorem reads_inline {head : InlineHead Literal} {ss : List (Selection Literal)}
    (hhead : head.Written room ws) (hss : N ss vs) :
    Reads (selectionWith room nested) (sign .spread :: joinFirst (ws ++ vs)) us
      ((Selection.inline head ss).Alike DenotedBy) := by
  obtain ⟨condition, directives, place⟩ := head
  obtain ⟨vs, rfl⟩ := hN ss vs hss
  cases hhead with
  | @mk conditionWords directiveWords hcondition hdirectives =>
    have hafter : ∀ location, Reads (do
        let directives ← Grammar.directives false room
        return .inline ⟨condition, directives, location⟩ (← nested))
        (directiveWords ++ sign .openBrace :: vs) us
        ((Selection.inline ⟨condition, directives, place⟩ ss).Alike DenotedBy) := fun location =>
      (reads_literalDirectives hdirectives (.sign (by decide))).bind
        fun ds hds => (hnested ss _ us hss).last fun found hfound =>
          .pure (.inline ⟨rfl, hds⟩ hfound)
    rw [List.append_assoc]
    refine Reads.location.look fun location _ => ?_
    refine .punctuator_then ((Reads.noComma ?_).look fun _ _ => ?_)
    · exact joined_joinFirst (by simp)
    refine reads_joinFirst (Reads.peek?.look fun l hl => ?_)
    cases hcondition with
    | @some type htype =>
      cases hl
      exact .skipped (.named (hafter location))
    | none =>
      obtain ⟨p, rest, hsigned⟩ : Signed (directiveWords ++ (sign .openBrace :: vs ++ us)) :=
        signed_directives hdirectives ⟨_, _, rfl⟩
      rw [List.nil_append, List.append_assoc, hsigned] at hl
      cases hl
      exact hafter location

theorem reads_selectionWith {s : Selection Literal} (h : s.Written room N ws)
    (hus : Clear [.colon, .openParen, .at, .openBrace] us) :
    Reads (selectionWith room nested) ws us (s.Alike DenotedBy) := by
  cases h with
  | leaf hhead =>
    have hfield : Reads (selectionWith room nested) (ws ++ []) us _ :=
      reads_field hN hnested hhead (.inl ⟨rfl, rfl⟩) hus
    rwa [List.append_nil] at hfield
  | field hhead hss => exact reads_field hN hnested hhead (.inr hss) hus
  | spread hs => exact reads_spread hs (hus.mono (by decide))
  | inline hhead hss => exact reads_inline hN hnested hhead hss

end

theorem clear_selection {N : List (Selection Literal) → List Word → Prop} {s : Selection Literal}
    (h : s.Written room N ws) {ps : List Punctuator} (hps : .spread ∉ ps) :
    Clear ps (ws ++ us) := by
  have hhead : ∀ {head : FieldHead Literal} {ws us}, head.Written room ws →
      Clear ps (ws ++ us) := by
    rintro ⟨alias?, name, _, _, _⟩ ws us ⟨hnames, -, -⟩
    cases hnames <;> exact .name
  cases h with
  | leaf h => exact hhead h
  | field h =>
    rw [List.append_assoc]
    exact hhead h
  | spread | inline => exact .sign hps

theorem exists_of_setWritten {ss : List (Selection Literal)}
    (h : Selection.SetWritten room ss ws) : ∃ vs, ws = sign .openBrace :: vs := by
  cases room with
  | zero => cases h
  | succ room =>
    obtain ⟨-, vs, -, rfl⟩ := h
    exact ⟨_, rfl⟩

theorem reads_selectionSet : ∀ (room : Nat) (ss : List (Selection Literal)) (ws us : List Word),
    Selection.SetWritten room ss ws →
    Reads (selectionSet room) ws us (List.Forall₂ (Selection.Alike DenotedBy) ss)
  | 0, _, _, _, h => nomatch h
  | room + 1, ss, ws, us, h => by
    obtain ⟨hne, vs, hss, rfl⟩ := h
    refine (Reads.punctuator .openBrace false).cons fun _ _ => Reads.someUpTo
      [.colon, .openParen, .at, .openBrace] (fun s _ ws us hs hclear => ?_)
      (fun s ws us hs => clear_selection hs (by decide)) (by decide) hss hne
    exact reads_selectionWith (fun _ _ => exists_of_setWritten) (reads_selectionSet room) hs hclear

theorem clear_default {l : Option Literal} (h : VariableDefinition.DefaultWritten l ws)
    {ps : List Punctuator} (hps : .equals ∉ ps) (hus : Clear ps us) : Clear ps (ws ++ us) := by
  cases h with
  | none => exact hus
  | some => exact .sign hps

theorem reads_variableDefinition {d : VariableDefinition Literal} (h : d.Written ws)
    (hus : Clear [.bang, .equals, .at, .openParen] us) :
    Reads variableDefinition ws us (d.Alike DenotedBy) := by
  obtain ⟨name, type, default, place⟩ := d
  cases h with
  | @mk typeWords defaultWords directiveWords written hname htype hdefault hdirectives =>
    have hclear : ∀ ps ⊆ [Punctuator.bang, .equals], Clear ps (directiveWords ++ us) :=
      fun ps hps => clear_directives hdirectives (fun h => absurd (hps h) (by decide))
        (hus.mono (List.Subset.trans hps (by decide)))
    refine Reads.location.look fun location _ => ?_
    refine (Reads.punctuator .dollar false).cons fun _ _ => .named ?_
    refine (Reads.punctuator .colon false).cons fun _ _ =>
      (reads_typeRef nestingLimit htype ?_).bind ?_
    · rw [List.append_assoc]
      exact clear_default hdefault (by decide) (hclear _ (by decide))
    rintro _ rfl
    refine (reads_defaultValue hdefault (hclear _ (by decide))).bind fun found hfound => ?_
    -- the directives are read, and dropped
    exact (reads_directives (Q := (· = ·)) (fun _ _ _ => reads_value _) hdirectives
      (hus.mono (by decide))).last fun _ _ => .pure ⟨rfl, rfl, hfound⟩

theorem reads_variableDefinitions {ds : List (VariableDefinition Literal)}
    (h : Group .openParen .closeParen VariableDefinition.Written ds ws)
    (hus : Clear [.openParen] us) :
    Reads variableDefinitions ws us (List.Forall₂ (VariableDefinition.Alike DenotedBy) ds) := by
  refine Reads.group _ (fun _ _ _ _ hd hclear => reads_variableDefinition hd hclear)
    (fun d ws us hd => ?_) (by decide) h hus
  cases hd with
  | mk => exact .sign (by decide)

theorem reads_operationName {name : Option String} (h : Operation.NameWritten name ws)
    (hus : Signed us) : Reads name? ws us (name = ·) := by
  cases h with
  | anonymous =>
    obtain ⟨p, vs, rfl⟩ := hus
    exact (Reads.name?_none (by nofun)).mono fun _ h => h.symm
  | named => exact Reads.name?_some _ false

/-- What follows the keyword of an operation. -/
theorem reads_operationBody {o : Operation Literal}
    {name parameters directives selections : List Word} (location : Option Location)
    (hname : Operation.NameWritten o.name name)
    (hparameters : Group .openParen .closeParen VariableDefinition.Written o.variableDefinitions
      parameters)
    (hdirectives : Many (Directive.Written (Literal.Written false nestingLimit)) o.directives
      directives)
    (hselections : Selection.SetWritten nestingLimit o.selections selections) :
    Reads (operationBody o.kind location) (name ++ (parameters ++ (directives ++ selections))) us
      (o.Alike DenotedBy) := by
  obtain ⟨vs, rfl⟩ := exists_of_setWritten hselections
  have hsigned : Signed (directives ++ (sign .openBrace :: vs) ++ us) := by
    rw [List.append_assoc]
    exact signed_directives hdirectives ⟨_, _, rfl⟩
  have hclear : Clear [.openParen] (directives ++ (sign .openBrace :: vs) ++ us) := by
    rw [List.append_assoc]
    exact clear_directives hdirectives (by decide) (.sign (by decide))
  refine (reads_operationName hname ?_).bind ?_
  · rw [List.append_assoc]
    exact signed_group hparameters hsigned
  rintro _ rfl
  exact (reads_variableDefinitions hparameters hclear).bind fun ds hds =>
    (reads_literalDirectives hdirectives (.sign (by decide))).bind fun es hes =>
      (reads_selectionSet _ _ _ us hselections).last fun ss hss => .pure ⟨rfl, rfl, hds, hes, hss⟩

/-- What follows the keyword of a fragment. -/
theorem reads_fragmentBody {f : Fragment Literal} {directives selections : List Word}
    (location : Option Location) (hname : f.name ≠ "on")
    (hdirectives : Many (Directive.Written (Literal.Written false nestingLimit)) f.directives
      directives)
    (hselections : Selection.SetWritten nestingLimit f.selections selections) :
    Reads (fragmentBody location) (word f.name :: word "on" :: word f.condition ::
      (directives ++ selections)) us (f.Alike DenotedBy) := by
  obtain ⟨vs, rfl⟩ := exists_of_setWritten hselections
  refine Reads.peek?.look fun l hl => .ite_neg ?_ ?_
  · rw [hl]
    exact fun heq => hname (Lexeme.name.inj (Option.some.inj heq))
  refine .named ((Reads.keyword "on" false).cons fun _ _ => .named ?_)
  exact (reads_literalDirectives hdirectives (.sign (by decide))).bind fun es hes =>
    (reads_selectionSet _ _ _ us hselections).last fun ss hss => .pure ⟨rfl, rfl, hes, hss⟩

end Grammar

namespace Item

open Syntax.Parser Syntax.Grammar
open Literal (DenotedBy)

variable {us ws : List Word}

/-- The item is a definition that is alike. -/
inductive Holds (d : Definition Literal) : Item → Prop where
  | mk {e : Definition Value} : d.Alike DenotedBy e → Holds d (.executable e)

theorem reads_operation {o : Operation Literal} (h : o.Written ws) :
    Reads grammar ws us (Holds (.operation o)) := by
  obtain ⟨name, kind, definitions, directives, selections, place⟩ := o
  refine Reads.location.look fun location _ => Reads.peek?.look fun l hl => ?_
  cases h with
  | shorthand hname hkind hdefinitions hdirectives hselections =>
    cases hname
    cases hkind
    cases hdefinitions
    cases hdirectives
    obtain ⟨vs, rfl⟩ := exists_of_setWritten hselections
    cases hl
    have hshorthand : Reads (shorthand location) (sign .openBrace :: vs) us
        (Operation.Alike DenotedBy ⟨none, .query, [], [], selections, place⟩) :=
      (reads_selectionSet _ _ _ us hselections).last fun ss hss =>
        .pure ⟨rfl, rfl, .nil, .nil, hss⟩
    exact hshorthand.last fun p hp => .pure (.mk (.operation hp))
  | keyword hname hparameters hdirectives hselections =>
    have hbody : Reads (do return executable (.operation (← operationBody kind location))) _ us
        (Holds (.operation ⟨name, kind, definitions, directives, selections, place⟩)) :=
      (reads_operationBody location hname hparameters hdirectives hselections).last
        fun p hp => .pure (.mk (.operation hp))
    cases hl
    cases kind with
    | query => exact .keyword_then hbody
    | mutation => exact .keyword_else (show "mutation" ≠ "query" by decide) (.keyword_then hbody)
    | subscription =>
      refine .keyword_else (show "subscription" ≠ "query" by decide) ?_
      exact .keyword_else (show "subscription" ≠ "mutation" by decide) (.keyword_then hbody)

theorem reads_fragment {f : Fragment Literal} (h : f.Written ws) :
    Reads grammar ws us (Holds (.fragment f)) := by
  refine Reads.location.look fun location _ => Reads.peek?.look fun l hl => ?_
  cases h with
  | mk hname hon hcondition hdirectives hselections =>
    cases hl
    -- the keywords of the operations come first
    refine .keyword_else (by decide) (.keyword_else (by decide) (.keyword_else (by decide) ?_))
    exact .keyword_then ((reads_fragmentBody location hon hdirectives hselections).last fun p hp =>
      .pure (.mk (.fragment hp)))

theorem reads_definition {d : Definition Literal} (h : d.Written ws) :
    Reads grammar ws us (Holds d) := by
  cases d with
  | operation o => exact reads_operation h
  | fragment f => exact reads_fragment h

theorem ne_nil_of_written {d : Definition Literal} (h : d.Written ws) : ws ≠ [] := by
  cases d with
  | operation o =>
    cases h with
    | shorthand _ _ _ _ hselections =>
      obtain ⟨vs, rfl⟩ := exists_of_setWritten hselections
      exact List.cons_ne_nil _ _
    | keyword => exact List.cons_ne_nil _ _
  | fragment f =>
    cases h with
    | mk => exact List.cons_ne_nil _ _

theorem reads_all {definitions : List (Definition Literal)} (hne : definitions ≠ [])
    (h : Many Definition.Written definitions ws) :
    Reads all ws [] (List.Forall₂ Holds definitions) := by
  cases h with
  | nil => exact absurd rfl hne
  | cons hd hds =>
    refine (reads_definition hd).bind fun item hitem => (Reads.manyUntil [] hds
      (fun d _ ws us hd _ => reads_definition hd) (fun _ _ _ _ => nofun) (fun d ws us hd => ?_)
      nofun rfl).last fun items hitems => .pure (.cons hitem hitems)
    obtain ⟨w, ws, rfl⟩ := List.exists_cons_of_ne_nil (ne_nil_of_written hd)
    rfl

/-- A text is parsed to definitions that are alike to those of which it is a text. -/
theorem holds_of_isText {definitions : List (Definition Literal)} {text : String}
    (h : Definition.IsText definitions text) :
    ∃ items, parse text = .ok items ∧ List.Forall₂ Holds definitions items := by
  obtain ⟨hne, ws, hws, htext⟩ := h
  obtain ⟨tokens, htokens, hbears⟩ := Token.ofText_of_laid htext
  obtain ⟨items, rest, hall, hrest, hitems⟩ := reads_all hne hws tokens (by rwa [List.append_nil])
  cases hrest
  refine ⟨items, ?_, hitems⟩
  exact bind_eq_ok_iff.2 ⟨tokens, htokens, bind_eq_ok_iff.2 ⟨(items, []), hall, rfl⟩⟩

end Item

end GraphQL.Syntax
