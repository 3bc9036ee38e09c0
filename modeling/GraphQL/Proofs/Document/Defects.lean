import GraphQL.Document.Document
import GraphQL.Proofs.Syntax.Items
import GraphQL.Proofs.Syntax.Scanning

/-!
Documents with defects: a text that the grammar accepts is refused exactly for a defect in it, and
the error is that of the first one (`Document.refused_for_first_defect`).
-/

set_option autoImplicit false

namespace GraphQL

open Syntax Syntax.Parser

def Syntax.Defect.error : Defect → SpecError
  | integer text => .invalidInt text
  | argument name => .missingArgumentValue name
  | field name => .missingFieldValue name

/-- Nothing is wrong at these tokens. -/
def Fine (spots : List Spot) : Prop := spots.findSome? Spot.defect? = none

theorem fine_append {spots spots' : List Spot} :
    Fine (spots ++ spots') ↔ Fine spots ∧ Fine spots' := by
  simp [Fine, List.findSome?_append]

theorem Syntax.Spot.Is.fine_cons {s : Spot} {l : Lexeme} (h : s.Is l) {spots : List Spot} :
    Fine (s :: spots) ↔ Fine spots := by
  rw [Fine, List.findSome?_cons, h.fine, Fine]

theorem fine_unread (spots : List Spot) : Fine (spots.map Spot.unread) := by simp [Fine]

theorem TypeRef.Occupies.fine {type : TypeRef} {spots : List Spot} (h : type.Occupies spots) :
    Fine spots := by
  induction h with
  | name hs => exact hs.fine_cons.2 rfl
  | list ho _ hc ih => exact ho.fine_cons.2 (fine_append.2 ⟨ih, hc.fine_cons.2 rfl⟩)
  | nonNull _ _ hb ih => exact fine_append.2 ⟨ih, hb.fine_cons.2 rfl⟩

theorem FieldHead.NameOccupies.fine {«alias» : Option String} {name : String} {spots : List Spot}
    (h : FieldHead.NameOccupies «alias» name spots) : Fine spots := by
  cases h with
  | plain hn => exact hn.fine_cons.2 rfl
  | aliased ha hc hn => exact ha.fine_cons.2 (hc.fine_cons.2 (hn.fine_cons.2 rfl))

theorem InlineHead.ConditionOccupies.fine {condition : Option String} {spots : List Spot}
    (h : InlineHead.ConditionOccupies condition spots) : Fine spots := by
  cases h with
  | none => rfl
  | some ho hn => exact ho.fine_cons.2 (hn.fine_cons.2 rfl)

theorem Operation.NameOccupies.fine {name : Option String} {spots : List Spot}
    (h : Operation.NameOccupies name spots) : Fine spots := by
  cases h with
  | anonymous => rfl
  | named hn => exact hn.fine_cons.2 rfl

/-- The computation fails with the first defect, and only if there is one. -/
def Detects {α : Type} (x : Except SpecError α) (spots : List Spot) : Prop :=
  match spots.findSome? Spot.defect? with
  | some d => x = .error d.error
  | none => ∃ a, x = .ok a

namespace Detects

variable {α β : Type} {x : Except SpecError α} {spots spots' : List Spot}

theorem ok (a : α) : Detects (.ok a) [] := ⟨a, rfl⟩

theorem after (hfine : Fine spots') (h : Detects x spots) : Detects x (spots' ++ spots) := by
  rwa [Detects, List.findSome?_append, hfine, Option.none_or]

theorem before (h : Detects x spots) (hfine : Fine spots') : Detects x (spots ++ spots') := by
  rwa [Detects, List.findSome?_append, hfine, Option.or_none]

theorem close {s : Spot} {l : Lexeme} (h : Detects x spots) (hs : s.Is l) :
    Detects x (spots ++ [s]) :=
  h.before (hs.fine_cons.2 rfl)

theorem skip {s : Spot} {l : Lexeme} (hs : s.Is l) (h : Detects x spots) : Detects x (s :: spots) :=
  h.after (hs.fine_cons.2 rfl : Fine [s])

theorem bind {f : α → Except SpecError β} (hx : Detects x spots) (hf : ∀ a, Detects (f a) spots') :
    Detects (x >>= f) (spots ++ spots') := by
  unfold Detects at hx ⊢
  rw [List.findSome?_append]
  cases hfirst : spots.findSome? Spot.defect? with
  | some d =>
    rw [hfirst] at hx
    subst hx
    rfl
  | none =>
    rw [hfirst] at hx
    obtain ⟨a, rfl⟩ := hx
    exact hf a

/-- What is made of the result is not wrong. -/
theorem map (f : α → β) (h : Detects x spots) : Detects (x.map f) spots := by
  unfold Detects at h ⊢
  split at h
  · subst h
    rfl
  · obtain ⟨a, rfl⟩ := h
    exact ⟨f a, rfl⟩

theorem bind_pure (f : α → β) (h : Detects x spots) :
    Detects (x >>= fun a => pure (f a)) spots := by
  have hmap : (x >>= fun a => pure (f a)) = x.map f := by cases x <;> rfl
  exact hmap ▸ h.map f

theorem mapM {f : β → Except SpecError α} {R : β → List Spot → Prop}
    (hf : ∀ b part, R b part → Detects (f b) part) {bs : List β} {parts : List (List Spot)}
    (h : List.Forall₂ R bs parts) : Detects (bs.mapM f) parts.flatten := by
  induction h with
  | nil => exact ok []
  | cons hR _ ih =>
    rw [List.mapM_cons]
    exact (hf _ _ hR).bind fun a => ih.bind_pure (a :: ·)

theorem enclosed {opening closing : Punctuator} {f : β → Except SpecError α}
    {R : β → List Spot → Prop} (hf : ∀ b part, R b part → Detects (f b) part) {bs : List β}
    (h : Enclosed opening closing R bs spots) : Detects (bs.mapM f) spots := by
  obtain ⟨ho, hparts, hc⟩ := h
  exact ((mapM hf hparts).close hc).skip ho

theorem bracketed {opening closing : Punctuator} {f : β → Except SpecError α}
    {R : β → List Spot → Prop} (hf : ∀ b part, R b part → Detects (f b) part) {bs : List β}
    (h : Bracketed opening closing R bs spots) : Detects (bs.mapM f) spots := by
  cases h with
  | none => exact ok []
  | some h => exact enclosed hf h

end Detects

/-! Values. -/

namespace Literal

theorem detects_member (defect : String → Defect)
    (read : Syntax.Value → Except SpecError Literal) {name : String} {v : Syntax.Value}
    {spots : List Spot}
    (hmissing : read .missing = .error (defect name).error)
    (hread : ∀ rest, v.Occupies rest → Detects (read v) rest)
    (h : Member defect Syntax.Value.Occupies (name, v) spots) : Detects (read v) spots := by
  cases h with
  | given hn hc hv => exact ((hread _ hv).skip hc).skip hn
  | missing ht => exact hmissing

mutual

theorem detects_ofSyntax (missing : SpecError) : ∀ (v : Syntax.Value) (spots : List Spot),
    v.Occupies spots → Detects (ofSyntax missing v) spots
  | .missing, _, h => nomatch h
  | .variable _, _, .reference hd hn => ((Detects.ok _).skip hn).skip hd
  | .int text, _, h => by
    rw [ofSyntax, Lexeme.integer_of_int?]
    cases h with
    | int hs hbits =>
      rw [if_pos hbits]
      exact (Detects.ok _).skip hs
    | tooLarge ht hbits =>
      rw [if_neg hbits]
      rfl
  | .float _, _, .float hs => (Detects.ok _).skip hs
  | .string _, _, .string hs => (Detects.ok _).skip hs
  | .boolean _, _, .boolean _ hs => (Detects.ok _).skip hs
  | .null, _, .null hs => (Detects.ok _).skip hs
  | .enum _, _, .enum _ hs => (Detects.ok _).skip hs
  | .list items, _, .list (.mk ho hparts hc) =>
    (((detects_ofItems missing items _ hparts).map list).close hc).skip ho
  | .object fields, _, .object (.mk ho hparts hc) =>
    (((detects_ofFields fields _ hparts).map object).close hc).skip ho

theorem detects_ofItems (missing : SpecError) :
    ∀ (vs : List Syntax.Value) (parts : List (List Spot)),
    List.Forall₂ Syntax.Value.Occupies vs parts → Detects (ofItems missing vs) parts.flatten
  | [], _, .nil => Detects.ok []
  | v :: vs, _, .cons hv hvs =>
    (detects_ofSyntax missing v _ hv).bind fun l =>
      (detects_ofItems missing vs _ hvs).bind_pure (l :: ·)

theorem detects_ofFields : ∀ (fields : List (String × Syntax.Value)) (parts : List (List Spot)),
    List.Forall₂ (Member .field Syntax.Value.Occupies) fields parts →
      Detects (ofFields fields) parts.flatten
  | [], _, .nil => Detects.ok []
  | (name, v) :: fields, _, .cons hv hvs =>
    (detects_member .field (ofSyntax (.missingFieldValue name)) rfl
      (fun rest => detects_ofSyntax _ v rest) hv).bind fun l =>
        (detects_ofFields fields _ hvs).bind_pure ((name, l) :: ·)

end

theorem detects_ofArgument (name : String) {v : Syntax.Value} {spots : List Spot}
    (h : Member .argument Syntax.Value.Occupies (name, v) spots) :
    Detects (ofArgument name v) spots :=
  detects_member .argument (ofArgument name) rfl (fun rest => detects_ofSyntax _ v rest) h

end Literal

/-! Selections and definitions. -/

section

variable {spots : List Spot}

theorem Argument.detects {a : Argument Syntax.Value} (h : a.Occupies spots) :
    Detects (a.traverse Literal.ofArgument) spots :=
  (Literal.detects_ofArgument a.name h).bind_pure _

theorem Argument.detects_all {arguments : List (Argument Syntax.Value)}
    (h : Bracketed .openParen .closeParen Argument.Occupies arguments spots) :
    Detects (arguments.mapM (·.traverse Literal.ofArgument)) spots :=
  .bracketed (fun _ _ h => Argument.detects h) h

theorem Directive.detects {d : Directive Syntax.Value} (h : d.Occupies spots) :
    Detects (d.traverse Literal.ofArgument) spots := by
  obtain ⟨ha, hn, harguments⟩ := h
  exact (((Argument.detects_all harguments).bind_pure _).skip hn).skip ha

theorem Directive.detects_all {directives : List (Directive Syntax.Value)}
    {parts : List (List Spot)} (h : List.Forall₂ Directive.Occupies directives parts) :
    Detects (directives.mapM (·.traverse Literal.ofArgument)) parts.flatten :=
  Detects.mapM (fun _ _ h => Directive.detects h) h

theorem FieldHead.detects {head : FieldHead Syntax.Value} (h : head.Occupies spots) :
    Detects (head.traverse Literal.ofArgument) spots := by
  obtain ⟨hnames, harguments, hdirectives⟩ := h
  have hrest : Detects (head.traverse Literal.ofArgument) _ :=
    (Argument.detects_all harguments).bind fun _ => (Directive.detects_all hdirectives).bind_pure _
  exact hrest.after hnames.fine

theorem Spread.detects {s : Spread Syntax.Value} (h : s.Occupies spots) :
    Detects (s.traverse Literal.ofArgument) spots := by
  obtain ⟨hn, hdirectives⟩ := h
  exact ((Directive.detects_all hdirectives).bind_pure _).skip hn

theorem InlineHead.detects {head : InlineHead Syntax.Value} (h : head.Occupies spots) :
    Detects (head.traverse Literal.ofArgument) spots := by
  obtain ⟨hcondition, hdirectives⟩ := h
  exact ((Directive.detects_all hdirectives).bind_pure _).after hcondition.fine

end

namespace Selection

mutual

theorem detects : ∀ (s : Selection Syntax.Value) (spots : List Spot), s.Occupies spots →
    Detects (s.traverse Literal.ofArgument) spots
  | .field head selections, spots, h => by
    rw [traverse]
    cases h with
    | leaf hhead =>
      have hnone : Detects
          (traverseAll Literal.ofArgument ([] : List (Selection Syntax.Value))) [] :=
        Detects.ok []
      simpa using (FieldHead.detects hhead).bind fun head => hnone.bind_pure (Selection.field head)
    | field hhead hset =>
      obtain ⟨ho, hparts, hc⟩ := hset
      have hset := ((detects_all selections _ hparts).close hc).skip ho
      exact (FieldHead.detects hhead).bind fun _ => hset.bind_pure _
  | .spread s, spots, h => by
    cases h with
    | spread he hs => exact ((Spread.detects hs).bind_pure _).skip he
  | .inline head selections, spots, h => by
    rw [traverse]
    cases h with
    | inline he hhead hset =>
      obtain ⟨ho, hparts, hc⟩ := hset
      have hset := ((detects_all selections _ hparts).close hc).skip ho
      exact ((InlineHead.detects hhead).bind fun _ => hset.bind_pure _).skip he

theorem detects_all : ∀ (selections : List (Selection Syntax.Value)) (parts : List (List Spot)),
    List.Forall₂ Selection.Occupies selections parts →
      Detects (traverseAll Literal.ofArgument selections) parts.flatten
  | [], _, .nil => Detects.ok []
  | s :: selections, _, .cons hs hrest =>
    (detects s _ hs).bind fun s' => (detects_all selections _ hrest).bind_pure (s' :: ·)

end

theorem detects_set {selections : List (Selection Syntax.Value)} {spots : List Spot}
    (h : Enclosed .openBrace .closeBrace Selection.Occupies selections spots) :
    Detects (traverseAll Literal.ofArgument selections) spots := by
  obtain ⟨ho, hparts, hc⟩ := h
  exact ((detects_all selections _ hparts).close hc).skip ho

end Selection

section

variable {spots : List Spot}

theorem VariableDefinition.detects_default {name : String} {default : Option Syntax.Value}
    (h : VariableDefinition.DefaultOccupies default spots) :
    Detects (default.mapM (Literal.ofArgument name)) spots := by
  cases h with
  | none => exact Detects.ok none
  | some he hv => exact ((Literal.detects_ofSyntax _ _ _ hv).map some).skip he

theorem VariableDefinition.detects {v : VariableDefinition Syntax.Value}
    (h : v.Occupies spots) : Detects (v.traverse Literal.ofArgument) spots := by
  obtain ⟨hd, hn, hc, htype, hdefault, hdirectives⟩ := h
  refine (((Detects.after htype.fine ?_).skip hc).skip hn).skip hd
  exact ((VariableDefinition.detects_default hdefault).before (fine_unread _)).bind_pure _

theorem Operation.detects {o : Operation Syntax.Value} (h : o.Occupies spots) :
    Detects (o.traverse Literal.ofArgument) spots := by
  cases h with
  | shorthand _ _ hdefinitions hdirectives hselections =>
    rw [Operation.traverse, hdefinitions, hdirectives]
    exact (Selection.detects_set hselections).bind_pure _
  | keyword hk hname hparameters hdirectives hselections =>
    have hdefinitions := Detects.bracketed (fun _ _ h => VariableDefinition.detects h) hparameters
    have hrest : Detects (o.traverse Literal.ofArgument) _ :=
      hdefinitions.bind fun _ => (Directive.detects_all hdirectives).bind fun _ =>
        (Selection.detects_set hselections).bind_pure _
    exact (hrest.after hname.fine).skip hk

theorem Fragment.detects {f : Fragment Syntax.Value} (h : f.Occupies spots) :
    Detects (f.traverse Literal.ofArgument) spots := by
  obtain ⟨hn, ho, hc, hdirectives, hselections⟩ := h
  have hrest : Detects (f.traverse Literal.ofArgument) _ :=
    (Directive.detects_all hdirectives).bind fun _ =>
      (Selection.detects_set hselections).bind_pure _
  exact ((hrest.skip hc).skip ho).skip hn

/-- Type system definitions have no defects. -/
theorem Document.detects_definitions {items : List Item} {parts : List (List Spot)}
    (h : List.Forall₂ Item.Occupies items parts) :
    Detects ((items.filterMap (·.executable?)).mapM (Definition.traverse Literal.ofArgument))
      parts.flatten := by
  induction h with
  | nil => exact Detects.ok []
  | cons hitem _ ih =>
    cases hitem with
    | operation ho =>
      simp only [List.filterMap_cons, Item.executable?, List.mapM_cons]
      exact ((Operation.detects ho).bind_pure _).bind fun _ => ih.bind_pure _
    | fragment _ hk hf =>
      simp only [List.filterMap_cons, Item.executable?, List.mapM_cons]
      exact (((Fragment.detects hf).bind_pure _).skip hk).bind fun _ => ih.bind_pure _
    | schema =>
      rw [List.filterMap_cons_none rfl]
      exact ih.after (fine_unread _)

end

namespace Document

theorem detects_of_areSpots {text : String} {spots : List Spot} (h : Item.AreSpots spots text) :
    Detects (parse text) spots := by
  obtain ⟨items, parts, hparse, hparts, rfl, -⟩ := h
  simp only [parse, hparse]
  exact (detects_definitions hparts).bind_pure _

/-- The first defect in the list of tokens is the first one in the text. -/
theorem offset_le_of_first {text : String} {spots before after : List Spot} {s : Spot}
    (h : Item.AreSpots spots text) (hspots : spots = before ++ s :: after)
    (hbefore : ∀ s' ∈ before, s'.defect? = none) {s' : Spot} (hs' : s' ∈ spots)
    (hdefect : s'.defect?.isSome = true) : s.token.offset ≤ s'.token.offset := by
  obtain ⟨-, -, -, -, -, htokens⟩ := h
  have hordered := (Scans.of_scan htokens).pairwise
  rw [hspots, List.pairwise_map, List.pairwise_append, List.pairwise_cons] at hordered
  rw [hspots, List.mem_append, List.mem_cons] at hs'
  rcases hs' with hs' | rfl | hs'
  · rw [hbefore s' hs'] at hdefect
    cases hdefect
  · exact le_rfl
  · exact (hordered.2.1.1 s' hs').le

/-- A text that the grammar accepts is refused if and only if something is wrong at one of its
tokens, and then for what is wrong at the first of these. -/
theorem refused_for_first_defect {text : String} (h : (Item.parse text).isOk = true) :
    (∃ spots, Item.AreSpots spots text) ∧ ∀ spots, Item.AreSpots spots text →
      ((∃ e, parse text = .error e) ↔ ∃ s ∈ spots, s.defect?.isSome = true) ∧
      ∀ e, parse text = .error e → ∃ s ∈ spots, ∃ d, s.defect? = some d ∧
        (∀ s' ∈ spots, s'.defect?.isSome = true → s.token.offset ≤ s'.token.offset) ∧
        e = match d with
          | .integer text => .invalidLiteral ("invalid int '" ++ text ++ "'")
          | .argument name => .parsing ("missing value for argument '" ++ name ++ "'")
          | .field name => .invalidLiteral ("missing value for field '" ++ name ++ "'") := by
  constructor
  · cases hparse : Item.parse text with
    | ok items => exact Item.exists_areSpots hparse
    | error => simp [hparse, Except.isOk, Except.toBool] at h
  intro spots hspots
  have hdetects := detects_of_areSpots hspots
  cases hfirst : spots.findSome? Spot.defect? with
  | none =>
    rw [Detects, hfirst] at hdetects
    obtain ⟨d, hd⟩ := hdetects
    have hfine := List.findSome?_eq_none_iff.1 hfirst
    have hnone : ¬ ∃ s ∈ spots, s.defect?.isSome = true := by
      rintro ⟨s, hs, hdefect⟩
      simp [hfine s hs] at hdefect
    simp [hd, hnone]
  | some d =>
    rw [Detects, hfirst] at hdetects
    obtain ⟨before, s, after, hsplit, hd, hbefore⟩ := List.findSome?_eq_some_iff.1 hfirst
    have hs : s ∈ spots := by simp [hsplit]
    refine ⟨⟨fun _ => ⟨s, hs, by simp [hd]⟩, fun _ => ⟨_, hdetects⟩⟩, fun e he => ?_⟩
    rw [hdetects] at he
    cases he
    refine ⟨s, hs, d, hd, fun s' => offset_le_of_first hspots hsplit hbefore, ?_⟩
    cases d <;> rfl

/-- Something is wrong at `x`, which is not read, and at the three tokens after it. -/
def flawed : String := "query($a:I @d(x)){f(b:[{k}]c d:9223372036854775808)}"

/-- Whether the error is that of a field `k` without a value. -/
def lacksValue : Except SpecError Document → Bool
  | .error e => e = .missingFieldValue "k"
  | .ok _ => false

theorem refused_for_first_defect_flawed : (Item.parse flawed).isOk = true ∧
    parse flawed = .error (.missingFieldValue "k") ∧ ∃ spots, Item.AreSpots spots flawed ∧
      ∃ s ∈ spots, ∃ d, s.defect? = some d ∧ d.error = .missingFieldValue "k" := by
  have hparsed : (Item.parse flawed).isOk = true := by decide +kernel
  have hlacks : lacksValue (parse flawed) = true := by decide +kernel
  have herror : parse flawed = .error (.missingFieldValue "k") := by
    unfold lacksValue at hlacks
    split at hlacks
    · next heq => rw [heq, of_decide_eq_true hlacks]
    · cases hlacks
  obtain ⟨⟨spots, hspots⟩, hall⟩ := refused_for_first_defect hparsed
  obtain ⟨s, hs, d, hd, -, he⟩ := (hall spots hspots).2 _ herror
  refine ⟨hparsed, herror, spots, hspots, s, hs, d, hd, ?_⟩
  cases d <;> exact he.symm

end Document

end GraphQL
