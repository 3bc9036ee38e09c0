import GraphQL.Proofs.Document.Mapping
import GraphQL.Proofs.Syntax.Denoting
import GraphQL.Proofs.Syntax.Parsing
import Mathlib.Data.List.Nodup

/-!
Documents read from texts of given definitions.

Nothing is lost on the way from a text to its document: the operations and fragments of the document
are those of which it is a text, in their order and with all that belongs to them, locations aside
(`Document.parse_of_isText`).
-/

set_option autoImplicit false

namespace GraphQL

open Syntax Syntax.Lexeme

/-! The operations and the fragments of definitions, each in their order. -/

section

variable {V : Type}

def Definition.operation? : Definition V → Option (Operation V)
  | .operation o => some o
  | .fragment _ => none

def Definition.fragment? : Definition V → Option (Fragment V)
  | .operation _ => none
  | .fragment f => some f

def Definition.operations (definitions : List (Definition V)) : List (Operation V) :=
  definitions.filterMap (·.operation?)

def Definition.fragments (definitions : List (Definition V)) : List (Fragment V) :=
  definitions.filterMap (·.fragment?)

theorem Definition.operations_unlocated (definitions : List (Definition V)) :
    operations (definitions.map (·.unlocated)) = (operations definitions).map (·.unlocated) := by
  rw [operations, operations, List.filterMap_map, List.map_filterMap]
  congr 1
  funext d
  cases d <;> rfl

theorem Definition.fragments_unlocated (definitions : List (Definition V)) :
    fragments (definitions.map (·.unlocated)) = (fragments definitions).map (·.unlocated) := by
  rw [fragments, fragments, List.filterMap_map, List.map_filterMap]
  congr 1
  funext d
  cases d <;> rfl

end

namespace Document

theorem ofDefinitions_eq (definitions : List (Definition Literal)) : ofDefinitions definitions =
    ⟨Entries.ofList ((Definition.operations definitions).map fun o => (o.name.getD "", o)),
      Entries.ofList ((Definition.fragments definitions).map fun f => (f.name, f))⟩ := by
  have hfold : ∀ (definitions : List (Definition Literal)) (d : Document),
      definitions.foldl add d =
        ⟨Entries.insertAll d.operations
          ((Definition.operations definitions).map fun o => (o.name.getD "", o)),
        Entries.insertAll d.fragments
          ((Definition.fragments definitions).map fun f => (f.name, f))⟩ := by
    intro definitions
    induction definitions with
    | nil => exact fun _ => rfl
    | cons definition definitions ih =>
      intro d
      rw [List.foldl_cons, ih]
      cases definition <;> rfl
  exact hfold definitions empty

/-- Operations and fragments of distinct names stay in their order. -/
theorem ofDefinitions_of_nodup {definitions : List (Definition Literal)}
    (ho : ((Definition.operations definitions).map (·.name.getD "")).Nodup)
    (hf : ((Definition.fragments definitions).map (·.name)).Nodup) :
    ofDefinitions definitions =
      ⟨(Definition.operations definitions).map fun o => (o.name.getD "", o),
        (Definition.fragments definitions).map fun f => (f.name, f)⟩ := by
  rw [ofDefinitions_eq, Entries.ofList_of_nodup, Entries.ofList_of_nodup]
  · rwa [Entries.keys, List.map_map]
  · rwa [Entries.keys, List.map_map]

end Document

theorem Syntax.exists_of_many {β : Type} {R : β → List Word → Prop} {bs : List β} {ws : List Word}
    (h : Many R bs ws) {b : β} (hb : b ∈ bs) : ∃ vs, R b vs := by
  induction h with
  | nil => cases hb
  | cons hw _ ih =>
    rcases List.mem_cons.1 hb with rfl | hb
    · exact ⟨_, hw⟩
    · exact ih hb

/-- The name of an operation in a text is not empty. -/
theorem Operation.name_ne_empty {o : Operation Literal} {ws : List Word} (h : o.Written ws) :
    o.name ≠ some "" := by
  intro hempty
  cases h with
  | shorthand hname => cases hname.symm.trans hempty
  | keyword hname =>
    rw [hempty] at hname
    cases hname with
    | named h =>
      obtain ⟨c, cs, htext, -⟩ := h
      cases htext

namespace Document

theorem nodup_keys {definitions : List (Definition Literal)} {text : String}
    (h : Definition.IsText definitions text)
    (ho : ((Definition.operations definitions).map (·.name)).Nodup) :
    ((Definition.operations definitions).map (·.name.getD "")).Nodup := by
  obtain ⟨-, ws, hws, -⟩ := h
  have hne : ∀ name ∈ (Definition.operations definitions).map (·.name), name ≠ some "" := by
    intro name hname
    obtain ⟨o, hmem, rfl⟩ := List.mem_map.1 hname
    obtain ⟨d, hd, hdo⟩ := List.mem_filterMap.1 hmem
    cases d with
    | fragment => cases hdo
    | operation =>
      cases hdo
      obtain ⟨vs, hvs⟩ := exists_of_many hws hd
      exact Operation.name_ne_empty hvs
  have hinjective : ∀ name ∈ (Definition.operations definitions).map (·.name),
      ∀ other ∈ (Definition.operations definitions).map (·.name),
        name.getD "" = other.getD "" → name = other := by
    intro name hname other hother heq
    cases name <;> cases other
    · rfl
    · exact absurd (congrArg some heq.symm) (hne _ hother)
    · exact absurd (congrArg some heq) (hne _ hname)
    · exact congrArg some heq
  have hkeys := List.Nodup.map_on hinjective ho
  rwa [List.map_map] at hkeys

/-- The definitions that are parsed are recovered from the items of the text. -/
theorem ofItems_of_holds {definitions : List (Definition Literal)} {items : List Item}
    (h : List.Forall₂ Item.Holds definitions items) :
    ∃ found, ofItems items = .ok (ofDefinitions found) ∧
      found.map (·.unlocated) = definitions.map (·.unlocated) := by
  have hwritten : List.Forall₂ (Definition.Alike Literal.DenotedBy) definitions
      (items.filterMap (·.executable?)) := by
    induction h with
    | nil => exact .nil
    | cons hd _ ih =>
      cases hd with
      | mk halike => exact .cons halike ih
  obtain ⟨found, hfound, hunlocated⟩ := mapM_of_recovers (hwritten.imp fun _ _ =>
    Definition.traverse_of_alike (f := Literal.ofArgument)
      fun _ _ _ hv => Literal.ofSyntax_of_denotedBy hv _)
  exact ⟨found, bind_eq_ok_iff.2 ⟨found, hfound, rfl⟩, hunlocated⟩

/-- A text of definitions is parsed to just these definitions, locations aside: operations and
fragments stand under their names, in the order of the text. -/
theorem parse_of_isText {definitions : List (Definition Literal)} {text : String}
    (h : Definition.IsText definitions text)
    (ho : ((Definition.operations definitions).map (·.name)).Nodup)
    (hf : ((Definition.fragments definitions).map (·.name)).Nodup) :
    (parse text).map (map Operation.unlocated Fragment.unlocated) = .ok
      ⟨(Definition.operations definitions).map fun o => (o.name.getD "", o.unlocated),
        (Definition.fragments definitions).map fun f => (f.name, f.unlocated)⟩ := by
  obtain ⟨items, hitems, hholds⟩ := Item.holds_of_isText h
  obtain ⟨found, hfound, hunlocated⟩ := ofItems_of_holds hholds
  have hoperations : (Definition.operations found).map (·.unlocated) =
      (Definition.operations definitions).map (·.unlocated) := by
    rw [← Definition.operations_unlocated, hunlocated, Definition.operations_unlocated]
  have hfragments : (Definition.fragments found).map (·.unlocated) =
      (Definition.fragments definitions).map (·.unlocated) := by
    rw [← Definition.fragments_unlocated, hunlocated, Definition.fragments_unlocated]
  -- names are kept without locations, so these are the names of the text
  have hkeys : (Definition.operations found).map (·.name.getD "") =
      (Definition.operations definitions).map (·.name.getD "") := by
    have h := congrArg (List.map fun o => o.name.getD "") hoperations
    rwa [List.map_map, List.map_map] at h
  have hnames : (Definition.fragments found).map (·.name) =
      (Definition.fragments definitions).map (·.name) := by
    have h := congrArg (List.map fun f => f.name) hfragments
    rwa [List.map_map, List.map_map] at h
  have hdocument := ofDefinitions_of_nodup (hkeys ▸ nodup_keys h ho) (hnames ▸ hf)
  have hentries := congrArg (List.map fun o => (o.name.getD "", o)) hoperations
  have hfragmentEntries := congrArg (List.map fun f => (f.name, f)) hfragments
  rw [List.map_map, List.map_map] at hentries hfragmentEntries
  simp only [parse, hitems, hfound, hdocument, Except.map, map, List.map_map]
  rw [Except.ok.injEq, Document.mk.injEq]
  exact ⟨hentries, hfragmentEntries⟩

/-- A query with a variable, an alias and a spread, and the fragment that is spread. -/
def sample : List (Definition Literal) :=
  [.operation ⟨some "Q", .query, [⟨"n", .int, some (.int (-1)), none⟩], [],
    [.field ⟨some "a", "f", [⟨"x", .list [.variable "n"]⟩], [], none⟩ [],
      .spread ⟨"F", [], none⟩], none⟩,
    .fragment ⟨"F", "T", [⟨"d", [], none⟩], [.field ⟨none, "g", [], [], none⟩ []], none⟩]

def sampleText : String := "query Q($n:Int=-1){a:f(x:[$n])...F},fragment F on T@d{g}"

theorem isText_sample : Definition.IsText sample sampleText := by
  have hdefault : VariableDefinition.DefaultWritten (some (.int (-1)))
      [sign .equals, ⟨.int "-1", false⟩] :=
    .some ⟨.int "-1", .int (.inl rfl) (by decide) (by decide), .int "-1", by decide⟩
  have hlist : Literal.Written false 499 (.list [.variable "n"])
      [sign .openBracket, sign .dollar, word "n", sign .closeBracket] :=
    ⟨.list [.variable "n"], .list (.cons (.reference "n") .nil),
      .list (.cons (.reference rfl (by decide)) .nil), by decide⟩
  have hfield : Selection.Written 499 (Selection.SetWritten 499)
      (.field ⟨some "a", "f", [⟨"x", .list [.variable "n"]⟩], [], none⟩ []) _ :=
    .leaf (.mk (.aliased (by decide) (by decide)) (.some (.cons (.mk (by decide) hlist) .nil)) .nil)
  have hspread : Selection.Written 499 (Selection.SetWritten 499) (.spread ⟨"F", [], none⟩) _ :=
    .spread (.mk (by decide) (by decide) .nil)
  have hplain : Selection.Written 499 (Selection.SetWritten 499)
      (.field ⟨none, "g", [], [], none⟩ []) _ :=
    .leaf (.mk (.plain (by decide)) .none .nil)
  have htype : TypeRef.Written Grammar.nestingLimit .int [word "Int"] :=
    .name (show IsName "Int" by decide)
  have hwritten : Many Definition.Written sample _ :=
    .cons (Operation.Written.keyword (.named (by decide))
        (.some (.cons (.mk (by decide) htype hdefault .nil) .nil)) .nil
        ⟨List.cons_ne_nil _ _, _, .cons hfield (.cons hspread .nil), rfl⟩)
      (.cons (Fragment.Written.mk (by decide) (by decide) (by decide)
        (.cons (.mk (by decide) .none) .nil)
        ⟨List.cons_ne_nil _ _, _, .cons hplain .nil, rfl⟩) .nil)
  have hminus : ∀ rest, (∀ c ∈ rest.head?, isNamePart c = false ∧ c ≠ '.') →
      (int "-1").Spelled "-1".toList rest := fun _ hrest =>
    .int (s := ⟨true, ['1'], none, none⟩) rfl rfl rfl hrest
  have htext : sampleText.toList = [
      'q', 'u', 'e', 'r', 'y', ' ', 'Q', '(', '$', 'n', ':', 'I', 'n', 't', '=', '-', '1', ')',
      '\x7b', 'a', ':', 'f', '(', 'x', ':', '[', '$', 'n', ']', ')', '.', '.', '.', 'F', '\x7d',
      ',', 'f', 'r', 'a', 'g', 'm', 'e', 'n', 't', ' ', 'F', ' ', 'o', 'n', ' ', 'T', '@', 'd',
      '\x7b', 'g', '\x7d'] := rfl
  refine ⟨List.cons_ne_nil _ _, _, hwritten, ?_⟩
  rw [htext]
  refine .name (by decide) rfl (.space (.name (by decide) rfl ?_))
  refine .punctuator (.punctuator (.name (by decide) rfl (.punctuator ?_)))
  refine .name (by decide) rfl (.punctuator (.word (w := ⟨int "-1", false⟩) (hminus _ ?_) ?_))
  · rintro _ ⟨⟩
    decide
  refine .punctuator (.punctuator (.name (by decide) rfl ?_))
  refine .word (w := ⟨punctuator .colon, true⟩) .punctuator (.name (by decide) rfl ?_)
  refine .punctuator (.name (by decide) rfl (.punctuator (.punctuator (.punctuator ?_))))
  refine .name (by decide) rfl (.punctuator (.punctuator (.punctuator ?_)))
  refine .word (w := ⟨name "F", true⟩) (.name (by decide) ?_) (.punctuator (.comma ?_ ?_))
  · rintro _ ⟨⟩
    rfl
  · rintro _ ⟨⟩
    rfl
  refine .name (by decide) rfl (.space (.name (by decide) rfl (.space ?_)))
  refine .name (by decide) rfl (.space (.name (by decide) rfl (.punctuator ?_)))
  exact .name (by decide) rfl (.punctuator (.name (by decide) rfl (.punctuator .nil)))

theorem parse_isText_sample : Definition.IsText sample sampleText ∧
    ((Definition.operations sample).map (·.name)).Nodup ∧
    ((Definition.fragments sample).map (·.name)).Nodup ∧
    (parse sampleText).map (map Operation.unlocated Fragment.unlocated) = .ok
      ⟨[("Q", ⟨some "Q", .query, [⟨"n", .int, some (.int (-1)), none⟩], [],
        [.field ⟨some "a", "f", [⟨"x", .list [.variable "n"]⟩], [], none⟩ [],
          .spread ⟨"F", [], none⟩], none⟩)],
      [("F", ⟨"F", "T", [⟨"d", [], none⟩], [.field ⟨none, "g", [], [], none⟩ []], none⟩)]⟩ :=
  ⟨isText_sample, by decide, by decide, parse_of_isText isText_sample (by decide) (by decide)⟩

end Document

end GraphQL
