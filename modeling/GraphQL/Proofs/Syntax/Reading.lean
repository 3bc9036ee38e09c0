import GraphQL.Proofs.Document.Alike
import GraphQL.Proofs.Syntax.Reads

/-!
What the grammar makes of the words of values, types, arguments and directives: the value or type
that was written, and the arguments and directives with what their values denote.
-/

set_option autoImplicit false

namespace GraphQL.Syntax

namespace Value

theorem depth_lt_of_mem {item : Value} {items : List Value} (h : item ∈ items) :
    item.depth < depthItems items := by
  induction items with
  | nil => cases h
  | cons first items ih =>
    rw [depthItems]
    rcases List.mem_cons.1 h with rfl | h
    · exact Nat.lt_of_lt_of_le (Nat.lt_succ_self _) (Nat.le_max_left _ _)
    · exact Nat.lt_of_lt_of_le (ih h) (Nat.le_max_right _ _)

theorem depth_lt_of_mem_fields {field : String × Value} {fields : List (String × Value)}
    (h : field ∈ fields) : field.2.depth < depthFields fields := by
  induction fields with
  | nil => cases h
  | cons first fields ih =>
    obtain ⟨name, value⟩ := first
    rw [depthFields]
    rcases List.mem_cons.1 h with rfl | h
    · exact Nat.lt_of_lt_of_le (Nat.lt_succ_self _) (Nat.le_max_left _ _)
    · exact Nat.lt_of_lt_of_le (ih h) (Nat.le_max_right _ _)

end Value

namespace Grammar

open Syntax.Parser

variable {us ws : List Word} {room : Nat} {constant : Bool}

section

variable {value : Parser Value} {P : Value → Prop}

theorem reads_valueAfterColon (h : Reads value ws us P) :
    Reads (valueAfterColon value) (sign .colon :: ws) us P :=
  .punctuator_then h

theorem reads_objectField {field : String × Value} {R : Value → List Word → Prop}
    (h : Labeled R field ws) (hR : ∀ vs, R field.2 vs → Reads value vs us (field.2 = ·)) :
    Reads (objectField value) ws us (field = ·) := by
  cases h with
  | mk _ hv =>
    refine .named ((reads_valueAfterColon (hR _ hv)).last ?_)
    rintro _ rfl
    exact .pure rfl

end

/-- A value begins with none of the other punctuators. -/
theorem clear_value {v : Value} (h : v.Written constant ws) {ps : List Punctuator}
    (hps : ∀ p ∈ [Punctuator.dollar, .openBracket, .openBrace], p ∉ ps) : Clear ps (ws ++ us) := by
  cases h with
  | reference | list | object => exact .sign (hps _ (by decide))
  | boolean | null | enum => exact .name
  | int | float | string => nofun

theorem clear_labeled {V : Type} {R : V → List Word → Prop} {e : String × V} (h : Labeled R e ws)
    {ps : List Punctuator} : Clear ps (ws ++ us) := by
  cases h with
  | mk => exact .name

theorem reads_valueWith {inner : Parser Value} {v : Value}
    (hinner : ∀ item ws us, item.Written constant ws → item.depth < room →
      Reads inner ws us (item = ·))
    (h : v.Written constant ws) (hroom : v.depth ≤ room) :
    Reads (valueWith constant inner) ws us (v = ·) := by
  refine Reads.peek?.look ?_
  rintro _ rfl
  cases h with
  | @reference name hconstant _ =>
    exact .ite_neg (by simp [hconstant]) (.skipped (.named (.pure rfl)))
  | int | float | string => exact .skipped (.pure rfl)
  | boolean b => cases b <;> exact .skipped (.pure rfl)
  | null => exact .skipped (.pure rfl)
  | enum _ htrue hfalse hnull =>
    refine .skipped (.pure ?_)
    simp [htrue, hfalse, hnull]
  | @list items ws hitems =>
    rw [Value.depth] at hroom
    refine .skipped ((Reads.upTo [] (fun item hitem ws us hw _ => hinner item ws us hw ?_)
      (fun _ _ _ hw => clear_value hw (by decide)) (by decide) hitems).last fun found hfound => ?_)
    · exact Nat.lt_of_lt_of_le (Value.depth_lt_of_mem hitem) hroom
    · rw [List.forall₂_eq_eq_eq] at hfound
      exact .pure (congrArg _ hfound)
  | @object fields ws hfields =>
    rw [Value.depth] at hroom
    refine .skipped ((Reads.upTo [] (fun field hfield ws us hw _ =>
        reads_objectField hw fun vs hv => hinner field.2 vs us hv ?_)
      (fun _ _ _ hw => clear_labeled hw) (by decide) hfields).last fun found hfound => ?_)
    · exact Nat.lt_of_lt_of_le (Value.depth_lt_of_mem_fields hfield) hroom
    · rw [List.forall₂_eq_eq_eq] at hfound
      exact .pure (congrArg _ hfound)

theorem reads_value : ∀ (room : Nat) {v : Value} {ws us : List Word}, v.Within constant room ws →
    Reads (value constant room) ws us (v = ·)
  | 0, _, _, _, h => reads_valueWith (fun _ _ _ _ hd => absurd hd (Nat.not_lt_zero _)) h.1 h.2
  | room + 1, _, _, _, h => reads_valueWith
      (fun _ _ _ hitem hd => reads_value room ⟨hitem, Nat.le_of_lt_succ hd⟩) h.1 h.2

theorem reads_literal {l : Literal} (h : l.Written constant room ws) :
    Reads (value constant room) ws us l.DenotedBy := by
  obtain ⟨v, hdenoted, hv⟩ := h
  exact (reads_value room hv).mono fun _ heq => heq ▸ hdenoted

/-! Types. No further non-null mark may come after a type. -/

section

variable {inner : Parser TypeRef} {type : TypeRef}
  (hinner : ∀ r item ws us, room = r + 1 → TypeRef.Written r item ws → Clear [.bang] us →
    Reads inner ws us (item = ·))

include hinner

/-- What stands before the non-null mark of a type. -/
theorem reads_listOrName (h : type.Written room ws) (htype : type.isNonNull = false) :
    Reads (do
      if ← punctuator? .openBracket then
        let item ← inner
        punctuator .closeBracket
        return .list item
      else return .ofName (← anyName) : Parser TypeRef) ws us (type = ·) := by
  cases h with
  | name hname => exact .punctuator_else .name (.named (.pure rfl))
  | @list r item ws hitem =>
    refine .punctuator_then ((hinner r item ws _ rfl hitem (.sign (by decide))).bind ?_)
    rintro _ rfl
    exact (Reads.punctuator .closeBracket false).last fun _ _ => .pure rfl
  | nonNull => cases htype

theorem reads_typeWith (h : type.Written room ws) (hus : Clear [.bang] us) :
    Reads (typeWith inner) ws us (type = ·) := by
  cases htype : type.isNonNull with
  | false =>
    refine (reads_listOrName hinner h htype).last ?_
    rintro _ rfl
    exact .punctuator_else hus (.pure rfl)
  | true =>
    cases h with
    | @nonNull _ type ws hplain hinnerType =>
      refine (reads_listOrName hinner hinnerType hplain).bind ?_
      rintro _ rfl
      exact .punctuator_then (.pure rfl)
    | @name _ text => rw [(TypeRef.plain_ofName text).1] at htype; cases htype
    | list => cases htype

end

theorem reads_typeRef : ∀ (room : Nat) {type : TypeRef} {ws us : List Word},
    type.Written room ws → Clear [.bang] us → Reads (typeRef room) ws us (type = ·)
  | 0, _, _, _, h, hus =>
    reads_typeWith (fun _ _ _ _ hroom => absurd hroom (Nat.zero_ne_add_one _)) h hus
  | room + 1, _, _, _, h, hus => by
    refine reads_typeWith (fun r item ws us hroom hitem hclear => ?_) h hus
    cases hroom
    exact reads_typeRef room hitem hclear

/-! Arguments and directives, over values that are written as `R` says and read as `Q` says. -/

section

variable {V : Type} {R : V → List Word → Prop} {Q : V → Value → Prop}
  (hR : ∀ v ws us, R v ws → Reads (value constant room) ws us (Q v))

include hR

theorem reads_argument {a : Argument V} (h : a.Written R ws) :
    Reads (argument constant room) ws us (a.Alike Q) := by
  obtain ⟨name, v⟩ := a
  cases h with
  | @mk _ _ vs hname hv =>
    exact .named ((reads_valueAfterColon (hR v vs us hv)).last fun _ hQ => .pure ⟨rfl, hQ⟩)

theorem reads_arguments {arguments : List (Argument V)}
    (h : Group .openParen .closeParen (Argument.Written R) arguments ws)
    (hus : Clear [.openParen] us) : Reads (Grammar.arguments constant room) ws us
      (List.Forall₂ (Argument.Alike Q) arguments) :=
  Reads.group [] (fun _ _ _ _ ha _ => reads_argument hR ha)
    (fun _ _ _ ha => clear_labeled ha) (by decide) h hus

theorem reads_directive {d : Directive V} (h : d.Written R ws) (hus : Clear [.openParen] us) :
    Reads (directive constant room) ws us (d.Alike Q) := by
  cases h with
  | mk hname harguments =>
    refine Reads.location.look fun location _ => (Reads.punctuator .at false).cons fun _ _ => ?_
    exact .named ((reads_arguments hR harguments hus).last fun _ ha => .pure ⟨rfl, ha⟩)

theorem reads_directives {ds : List (Directive V)} (h : Many (Directive.Written R) ds ws)
    (hus : Clear [.at, .openParen] us) :
    Reads (directives constant room) ws us (List.Forall₂ (Directive.Alike Q) ds) := by
  refine Reads.whileNext [.openParen] h (fun _ _ _ _ hd hclear => reads_directive hR hd hclear) ?_
    (by decide) hus
  intro d ws hd
  cases hd with
  | mk => exact ⟨_, rfl⟩

end

/-! The same where the values are literals. -/

theorem reads_literalArguments {arguments : List (Argument Literal)}
    (h : Group .openParen .closeParen (Argument.Written (Literal.Written constant room)) arguments
      ws) (hus : Clear [.openParen] us) : Reads (Grammar.arguments constant room) ws us
      (List.Forall₂ (Argument.Alike Literal.DenotedBy) arguments) :=
  reads_arguments (Q := Literal.DenotedBy) (fun _ _ _ => reads_literal) h hus

theorem reads_literalDirectives {ds : List (Directive Literal)}
    (h : Many (Directive.Written (Literal.Written constant room)) ds ws)
    (hus : Clear [.at, .openParen] us) : Reads (directives constant room) ws us
      (List.Forall₂ (Directive.Alike Literal.DenotedBy) ds) :=
  reads_directives (Q := Literal.DenotedBy) (fun _ _ _ => reads_literal) h hus

theorem reads_defaultValue {l : Option Literal} (h : VariableDefinition.DefaultWritten l ws)
    (hus : Clear [.equals] us) :
    Reads (defaultValue nestingLimit) ws us (Option.Rel Literal.DenotedBy l) := by
  cases h with
  | none => exact .punctuator_else hus (.pure .none)
  | some hl => exact .punctuator_then ((reads_literal hl).last fun _ hv => .pure (.some hv))

end Grammar

end GraphQL.Syntax
