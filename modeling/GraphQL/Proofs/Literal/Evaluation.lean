import GraphQL.Document.Document
import GraphQL.Path
import GraphQL.Proofs.Entries
import GraphQL.Proofs.Literal.Numbers

/-!
What literals evaluate to.

The rules of evaluation are those of `Literal.Evaluates`: a scalar has the value that is written, a
list has an item for each of its items, and an object has the last value of each of its fields. A
null in the result has one of the reasons of `Literal.NullAt`, and no binding matters but those of
the variables that the literal mentions.
-/

set_option autoImplicit false

namespace GraphQL

open Json (Value)

/-- What stands at a path in a value. -/
def Json.Value.at? : Path → Value → Option Value
  | [], value => some value
  | .index i :: path, .array items => items[i]?.bind (at? path)
  | .key key :: path, .object members => (Entries.get? key members).bind (at? path)
  | _ :: _, _ => none

namespace Literal

/-- What holds of scalars, and of lists and objects if it holds of their parts, holds of all
literals. -/
@[elab_as_elim]
theorem inductionOn {motive : Literal → Prop} (l : Literal)
    (reference : ∀ name, motive (.variable name)) (int : ∀ i, motive (.int i))
    (float : ∀ x, motive (.float x)) (string : ∀ s, motive (.string s))
    (boolean : ∀ b, motive (.boolean b)) (null : motive .null)
    (enum : ∀ name, motive (.enum name))
    (list : ∀ items, (∀ item ∈ items, motive item) → motive (.list items))
    (object : ∀ fields, (∀ field ∈ fields, motive field.2) → motive (.object fields)) :
    motive l := by
  refine @Literal.rec motive (fun items => ∀ item ∈ items, motive item)
    (fun fields => ∀ field ∈ fields, motive field.2) (fun field => motive field.2)
    reference int float string boolean null enum list object ?_ ?_ ?_ ?_ (fun _ _ h => h) l
  · exact List.forall_mem_nil _
  · exact fun _ _ hitem hitems => List.forall_mem_cons.2 ⟨hitem, hitems⟩
  · exact List.forall_mem_nil _
  · exact fun _ _ hfield hfields => List.forall_mem_cons.2 ⟨hfield, hfields⟩

/-- A variable without a binding. -/
inductive Unbound (bindings : Entries Value) : Literal → Prop where
  | intro {name : String} : Entries.get? name bindings = none → Unbound bindings (.variable name)

mutual

/-- The value of a literal under bindings of variables. -/
inductive Evaluates (bindings : Entries Value) : Literal → Value → Prop where
  | reference {name : String} {value : Value} : Entries.get? name bindings = some value →
      Evaluates bindings (.variable name) value
  | int (i : Int) : Evaluates bindings (.int i) (.int i)
  | float {x : Binary64} : x.isFinite = true → Evaluates bindings (.float x) (.number (.double x))
  /-- JSON has no infinite numbers. -/
  | infinite {x : Binary64} : x.isFinite = false → Evaluates bindings (.float x) .null
  | string (s : String) : Evaluates bindings (.string s) (.string s)
  | boolean (b : Bool) : Evaluates bindings (.boolean b) (.bool b)
  | null : Evaluates bindings .null .null
  | enum (name : String) : Evaluates bindings (.enum name) (.string name)
  | list {items : List Literal} {values : List Value} :
      List.Forall₂ (EvaluatesItem bindings) items values →
      Evaluates bindings (.list items) (.array values)
  /-- A name that is written again keeps its first position and has its last value. -/
  | object {fields : List (String × Literal)} {written members : List (String × Value)} :
      EvaluatesFields bindings fields written →
      Entries.keys members = (Entries.keys written).eraseDups →
      (∀ key value, Entries.get? key members = some value ↔
        ∃ before after, written = before ++ (key, value) :: after ∧ key ∉ Entries.keys after) →
      Evaluates bindings (.object fields) (.object members)

inductive EvaluatesItem (bindings : Entries Value) : Literal → Value → Prop where
  | value {item : Literal} {value : Value} : Evaluates bindings item value →
      EvaluatesItem bindings item value
  | unbound {item : Literal} : Unbound bindings item → EvaluatesItem bindings item .null

inductive EvaluatesFields (bindings : Entries Value) :
    List (String × Literal) → List (String × Value) → Prop where
  | nil : EvaluatesFields bindings [] []
  | value {name : String} {literal : Literal} {value : Value}
      {fields : List (String × Literal)} {written : List (String × Value)} :
      Evaluates bindings literal value → EvaluatesFields bindings fields written →
      EvaluatesFields bindings ((name, literal) :: fields) ((name, value) :: written)
  | unbound {name : String} {literal : Literal} {fields : List (String × Literal)}
      {written : List (String × Value)} :
      Unbound bindings literal → EvaluatesFields bindings fields written →
      EvaluatesFields bindings ((name, literal) :: fields) written

end

variable {bindings : Entries Value} {l : Literal}

/-- Why there is a null at a path of the value. -/
inductive NullAt (bindings : Entries Value) : Literal → Path → Prop where
  | null : NullAt bindings .null []
  | infinite {x : Binary64} : x.isFinite = false → NullAt bindings (.float x) []
  | bound {name : String} {value : Value} {path : Path} :
      Entries.get? name bindings = some value → value.at? path = some .null →
      NullAt bindings (.variable name) path
  | unbound {items : List Literal} {i : Nat} {item : Literal} : items[i]? = some item →
      Unbound bindings item → NullAt bindings (.list items) [.index i]
  | item {items : List Literal} {i : Nat} {item : Literal} {path : Path} :
      items[i]? = some item → NullAt bindings item path →
      NullAt bindings (.list items) (.index i :: path)
  /-- Of the fields of one name the last that has a value counts. -/
  | field {before after : List (String × Literal)} {name : String} {literal : Literal}
      {path : Path} : NullAt bindings literal path →
      (∀ other, (name, other) ∈ after → Unbound bindings other) →
      NullAt bindings (.object (before ++ (name, literal) :: after)) (.key name :: path)

inductive Mentions (name : String) : Literal → Prop where
  | reference : Mentions name (.variable name)
  | item {items : List Literal} {item : Literal} : item ∈ items → Mentions name item →
      Mentions name (.list items)
  | field {fields : List (String × Literal)} {field : String × Literal} : field ∈ fields →
      Mentions name field.2 → Mentions name (.object fields)

theorem evaluateItems_eq (bindings : Entries Value) (items : List Literal) :
    evaluateItems bindings items = items.map fun item => (evaluate bindings item).getD .null := by
  induction items with
  | nil => rfl
  | cons item items ih => rw [evaluateItems, ih, List.map_cons]

theorem evaluateFields_eq (bindings : Entries Value) (fields : List (String × Literal)) :
    evaluateFields bindings fields =
      fields.filterMap fun field => (evaluate bindings field.2).map (field.1, ·) := by
  induction fields with
  | nil => rfl
  | cons field fields ih =>
    obtain ⟨name, literal⟩ := field
    rw [evaluateFields, List.filterMap_cons, ih]
    cases evaluate bindings literal <;> rfl

theorem evaluate_eq_none_iff : l.evaluate bindings = none ↔ Unbound bindings l := by
  constructor
  · intro h
    cases l <;> first | exact .intro h | cases h
  · rintro ⟨h⟩
    exact h

theorem evaluatesItem_iff {item : Literal} {value : Value}
    (h : ∀ value, Evaluates bindings item value ↔ item.evaluate bindings = some value) :
    EvaluatesItem bindings item value ↔ (item.evaluate bindings).getD .null = value := by
  constructor
  · rintro (hvalue | hunbound)
    · rw [(h value).1 hvalue, Option.getD_some]
    · rw [evaluate_eq_none_iff.2 hunbound, Option.getD_none]
  · intro hvalue
    cases heval : item.evaluate bindings with
    | none =>
      rw [heval, Option.getD_none] at hvalue
      exact hvalue ▸ .unbound (evaluate_eq_none_iff.1 heval)
    | some value' =>
      rw [heval, Option.getD_some] at hvalue
      exact .value ((h value).2 (hvalue ▸ heval))

theorem evaluatesItems_iff {items : List Literal} {values : List Value}
    (h : ∀ item ∈ items, ∀ value, Evaluates bindings item value ↔
      item.evaluate bindings = some value) :
    List.Forall₂ (EvaluatesItem bindings) items values ↔ evaluateItems bindings items = values := by
  rw [evaluateItems_eq]
  induction items generalizing values with
  | nil => simp [eq_comm]
  | cons item items ih =>
    obtain ⟨hitem, hitems⟩ := List.forall_mem_cons.1 h
    rw [List.forall₂_cons_left_iff, List.map_cons]
    constructor
    · rintro ⟨value, values, hvalue, hvalues, rfl⟩
      rw [(evaluatesItem_iff hitem).1 hvalue, (ih hitems).1 hvalues]
    · rintro rfl
      exact ⟨_, _, (evaluatesItem_iff hitem).2 rfl, (ih hitems).2 rfl, rfl⟩

theorem evaluatesFields_iff {fields : List (String × Literal)} {written : List (String × Value)}
    (h : ∀ field ∈ fields, ∀ value, Evaluates bindings field.2 value ↔
      field.2.evaluate bindings = some value) :
    EvaluatesFields bindings fields written ↔ evaluateFields bindings fields = written := by
  induction fields generalizing written with
  | nil => exact ⟨fun h => by cases h; rfl, fun h => h ▸ .nil⟩
  | cons field fields ih =>
    obtain ⟨name, literal⟩ := field
    obtain ⟨hliteral, hfields⟩ := List.forall_mem_cons.1 h
    rw [evaluateFields]
    constructor
    · rintro (_ | ⟨hvalue, hrest⟩ | ⟨hunbound, hrest⟩)
      · rw [(hliteral _).1 hvalue, (ih hfields).1 hrest]
      · rw [evaluate_eq_none_iff.2 hunbound, (ih hfields).1 hrest]
    · intro heq
      cases heval : literal.evaluate bindings with
      | none =>
        rw [heval] at heq
        exact .unbound (evaluate_eq_none_iff.1 heval) ((ih hfields).2 heq)
      | some value =>
        rw [heval] at heq
        exact heq ▸ .value ((hliteral value).2 heval) ((ih hfields).2 rfl)

/-- The rules of an object leave no choice of its members. -/
theorem ofList_eq_iff {written members : Entries Value} :
    Entries.ofList written = members ↔
      Entries.keys members = (Entries.keys written).eraseDups ∧
        ∀ key value, Entries.get? key members = some value ↔
          ∃ before after, written = before ++ (key, value) :: after ∧
            key ∉ Entries.keys after := by
  constructor
  · rintro rfl
    exact ⟨Entries.keys_ofList written, fun _ _ => Entries.get?_ofList_eq_some_iff⟩
  · rintro ⟨hkeys, hget⟩
    refine Entries.ext (Entries.nodup_keys_ofList written) ?_ fun key => ?_
    · rw [Entries.keys_ofList, hkeys]
    · ext value
      rw [hget, Entries.get?_ofList_eq_some_iff]

/-- Evaluation follows the rules, and they leave it no choice. -/
theorem evaluates_iff {value : Value} :
    Evaluates bindings l value ↔ l.evaluate bindings = some value := by
  induction l using inductionOn generalizing value with
  | reference name => exact ⟨fun h => by cases h; assumption, .reference⟩
  | float x =>
    rw [evaluate]
    cases hx : x.isFinite with
    | false => exact ⟨fun h => by cases h <;> simp_all, fun h => by cases h; exact .infinite hx⟩
    | true => exact ⟨fun h => by cases h <;> simp_all, fun h => by cases h; exact .float hx⟩
  | int | string | boolean | null | enum =>
    exact ⟨fun h => by cases h; rfl, fun h => by cases h; constructor⟩
  | list items ih =>
    have hitems : ∀ {values}, List.Forall₂ (EvaluatesItem bindings) items values ↔
        evaluateItems bindings items = values := evaluatesItems_iff fun item h _ => ih item h
    rw [evaluate]
    constructor
    · intro h
      cases h with
      | list hvalues => rw [hitems.1 hvalues]
    · intro h
      cases h
      exact .list (hitems.2 rfl)
  | object fields ih =>
    have hfields : ∀ {written}, EvaluatesFields bindings fields written ↔
        evaluateFields bindings fields = written := evaluatesFields_iff fun field h _ => ih field h
    rw [evaluate]
    constructor
    · intro h
      cases h with
      | object hwritten hkeys hget => rw [hfields.1 hwritten, ofList_eq_iff.2 ⟨hkeys, hget⟩]
    · intro h
      cases h
      obtain ⟨hkeys, hget⟩ := ofList_eq_iff.1 rfl
      exact .object (hfields.2 rfl) hkeys hget

theorem not_mem_keys_evaluateFields {name : String} {fields : List (String × Literal)} :
    name ∉ Entries.keys (evaluateFields bindings fields) ↔
      ∀ literal, (name, literal) ∈ fields → Unbound bindings literal := by
  simp only [Entries.keys, evaluateFields_eq, List.mem_map, List.mem_filterMap,
    Option.map_eq_some_iff, ← evaluate_eq_none_iff]
  constructor
  · intro h literal hmem
    exact Option.eq_none_iff_forall_ne_some.2 fun value hvalue =>
      h ⟨_, ⟨_, hmem, value, hvalue, rfl⟩, rfl⟩
  · rintro h ⟨_, ⟨⟨n, literal⟩, hmem, value, hvalue, rfl⟩, rfl⟩
    rw [h literal hmem] at hvalue
    cases hvalue

/-- The last field of a name that has a value. -/
theorem get?_evaluateFields_eq_some_iff {name : String} {fields : List (String × Literal)}
    {value : Value} :
    Entries.get? name (Entries.ofList (evaluateFields bindings fields)) = some value ↔
      ∃ before literal after, fields = before ++ (name, literal) :: after ∧
        literal.evaluate bindings = some value ∧
        ∀ other, (name, other) ∈ after → Unbound bindings other := by
  rw [Entries.get?_ofList_eq_some_iff]
  constructor
  · rintro ⟨before, after, heq, hlast⟩
    rw [evaluateFields_eq, List.filterMap_eq_append_iff] at heq
    obtain ⟨fields₁, fields₂, rfl, -, heq⟩ := heq
    obtain ⟨fields₃, ⟨n, literal⟩, fields₄, rfl, -, hliteral, rfl⟩ :=
      List.filterMap_eq_cons_iff.1 heq
    obtain ⟨value, hvalue, hentry⟩ := Option.map_eq_some_iff.1 hliteral
    cases hentry
    rw [← evaluateFields_eq] at hlast
    exact ⟨fields₁ ++ fields₃, literal, fields₄, by simp, hvalue,
      not_mem_keys_evaluateFields.1 hlast⟩
  · rintro ⟨before, literal, after, rfl, hvalue, hlast⟩
    refine ⟨evaluateFields bindings before, evaluateFields bindings after, ?_,
      not_mem_keys_evaluateFields.2 hlast⟩
    simp [evaluateFields_eq, hvalue]

theorem getD_at?_eq_null_iff {value : Option Value} {path : Path} :
    (value.getD .null).at? path = some .null ↔
      value.bind (Value.at? path) = some .null ∨ value = none ∧ path = [] := by
  cases value with
  | none => rcases path with _ | ⟨_ | _, _⟩ <;> simp [Value.at?]
  | some value => simp

/-- The nulls of the value, each with its reason. -/
theorem nullAt_iff {path : Path} :
    (l.evaluate bindings).bind (Value.at? path) = some .null ↔ NullAt bindings l path := by
  induction l using inductionOn generalizing path with
  | reference name =>
    rw [evaluate, Option.bind_eq_some_iff]
    constructor
    · rintro ⟨value, hget, hnull⟩
      exact .bound hget hnull
    · intro h
      cases h with
      | bound hget hnull => exact ⟨_, hget, hnull⟩
  | int | string | boolean | enum =>
    refine ⟨fun h => ?_, nofun⟩
    rcases path with _ | ⟨_ | _, _⟩ <;> cases h
  | null =>
    constructor
    · intro h
      rcases path with _ | ⟨_ | _, _⟩ <;> first | exact .null | cases h
    · intro h
      cases h
      rfl
  | float x =>
    rw [evaluate]
    cases hx : x.isFinite with
    | false =>
      constructor
      · intro h
        rcases path with _ | ⟨_ | _, _⟩ <;> first | exact .infinite hx | cases h
      · intro h
        cases h
        rfl
    | true =>
      constructor
      · intro h
        rcases path with _ | ⟨_ | _, _⟩ <;> cases h
      · intro h
        cases h
        simp_all
  | list items ih =>
    rw [evaluate, Option.bind_some]
    rcases path with _ | ⟨i | key, path⟩
    · exact ⟨nofun, nofun⟩
    · rw [Value.at?, evaluateItems_eq, List.getElem?_map, Option.bind_map, Option.bind_eq_some_iff]
      constructor
      · rintro ⟨item, hitem, hnull⟩
        rcases getD_at?_eq_null_iff.1 hnull with hnull | ⟨hnone, rfl⟩
        · exact .item hitem ((ih item (List.mem_of_getElem? hitem)).1 hnull)
        · exact .unbound hitem (evaluate_eq_none_iff.1 hnone)
      · intro h
        cases h with
        | unbound hitem hunbound =>
          exact ⟨_, hitem, getD_at?_eq_null_iff.2 (.inr ⟨evaluate_eq_none_iff.2 hunbound, rfl⟩)⟩
        | item hitem hnull =>
          have hitem' := (ih _ (List.mem_of_getElem? hitem)).2 hnull
          exact ⟨_, hitem, getD_at?_eq_null_iff.2 (.inl hitem')⟩
    · exact ⟨nofun, nofun⟩
  | object fields ih =>
    rw [evaluate, Option.bind_some]
    rcases path with _ | ⟨i | name, path⟩
    · exact ⟨nofun, nofun⟩
    · exact ⟨nofun, nofun⟩
    · rw [Value.at?, Option.bind_eq_some_iff]
      constructor
      · rintro ⟨value, hget, hnull⟩
        obtain ⟨before, literal, after, rfl, hvalue, hlast⟩ :=
          get?_evaluateFields_eq_some_iff.1 hget
        refine .field ((ih (name, literal) ?_).1 ?_) hlast
        · exact List.mem_append_right _ List.mem_cons_self
        · rw [hvalue]
          exact hnull
      · intro h
        cases h with
        | @field before after _ literal _ hnull hlast =>
          have hnull' := (ih (name, literal) (List.mem_append_right _ List.mem_cons_self)).2 hnull
          obtain ⟨value, hvalue, hat⟩ := Option.bind_eq_some_iff.1 hnull'
          exact ⟨value, get?_evaluateFields_eq_some_iff.2 ⟨_, _, _, rfl, hvalue, hlast⟩, hat⟩

/-- No binding matters but those of the variables that are mentioned. -/
theorem evaluate_congr {bindings' : Entries Value}
    (h : ∀ name, Mentions name l → Entries.get? name bindings' = Entries.get? name bindings) :
    l.evaluate bindings' = l.evaluate bindings := by
  induction l using inductionOn with
  | reference name => exact h name .reference
  | int | float | string | boolean | null | enum => rfl
  | list items ih =>
    have hitems : ∀ item ∈ items, item.evaluate bindings' = item.evaluate bindings :=
      fun item hitem => ih item hitem fun name hname => h name (.item hitem hname)
    rw [evaluate, evaluate, evaluateItems_eq, evaluateItems_eq]
    rw [List.map_congr_left fun item hitem => congrArg (·.getD .null) (hitems item hitem)]
  | object fields ih =>
    have hfields : ∀ field ∈ fields, field.2.evaluate bindings' = field.2.evaluate bindings :=
      fun field hfield => ih field hfield fun name hname => h name (.field hfield hname)
    rw [evaluate, evaluate, evaluateFields_eq, evaluateFields_eq]
    rw [List.filterMap_congr fun field hfield => by rw [hfields field hfield]]

open Syntax.Lexeme in
/-- A literal evaluates as it is written: there is no value only for a variable without a binding;
any other value is that of the rules; its nulls are the written ones, those of variables, and those
of infinite floats; and it depends on the variables that the literal mentions. A written integer is
read as itself if it has 64 bits and refused otherwise, while every written float is read, as a
nearest double or, beyond the end of their range, as infinity. -/
theorem evaluation_as_written (bindings : Entries Value) (l : Literal) :
    (l.evaluate bindings = none ↔ l.Unbound bindings) ∧
    (∀ value, l.evaluate bindings = some value ↔ l.Evaluates bindings value) ∧
    (∀ path, (l.evaluate bindings).bind (Value.at? path) = some .null ↔ l.NullAt bindings path) ∧
    (∀ bindings' : Entries Value,
      (∀ name, l.Mentions name → Entries.get? name bindings' = Entries.get? name bindings) →
      l.evaluate bindings' = l.evaluate bindings) ∧
    ∀ (missing : SpecError) (s : Spelling) (mark : Char) (text : String),
      s.isValid = true → IsMark mark → text.toList = s.chars mark →
      (s.isInt = true → ofSyntax missing (.int text) =
        if -0x8000000000000000 ≤ s.integer ∧ s.integer < 0x8000000000000000 then
          .ok (.int s.integer)
        else .error (.invalidInt text)) ∧
      ofSyntax missing (.float text) = .ok (.float s.nearest) ∧
      (s.nearest.isFinite = true ↔ s.magnitude < Binary64.overflow) ∧
      (s.nearest.isFinite = true →
        ∀ y : Binary64, |s.value - s.nearest.toRat| ≤ |s.value - y.toRat|) :=
  ⟨evaluate_eq_none_iff, fun _ => evaluates_iff.symm, fun _ => nullAt_iff,
    fun _ => evaluate_congr, fun missing s _ _ hvalid hmark htext =>
      ⟨fun hint => ofSyntax_int missing hvalid hint htext,
        ofSyntax_float missing hvalid hmark htext, s.isFinite_nearest_iff,
        Spelling.abs_value_sub_nearest_le⟩⟩

/-- Fields that repeat, a variable that is bound to null, and one that has no binding. -/
def repeating : Literal :=
  .object [("x", .int 1), ("y", .list [.variable "free", .variable "null"]),
    ("x", .variable "free"), ("x", .string "last"), ("z", .variable "free")]

/-- No double is this number. -/
def tenth : Syntax.Lexeme.Spelling := ⟨false, ['0'], some ['1'], none⟩

theorem evaluation_as_written_repeating :
    repeating.evaluate [("null", .null)] =
      some (.object [("x", .string "last"), ("y", .array [.null, .null])]) ∧
    repeating.Evaluates [("null", .null)]
      (.object [("x", .string "last"), ("y", .array [.null, .null])]) ∧
    repeating.NullAt [("null", .null)] [.key "y", .index 0] ∧
    ¬ repeating.NullAt [("null", .null)] [.key "x"] ∧
    repeating.evaluate [("null", .null), ("other", .null)] = repeating.evaluate [("null", .null)] ∧
    ofSyntax (.missingFieldValue "x") (.int "9223372036854775808") =
      .error (.invalidInt "9223372036854775808") ∧
    ofSyntax (.missingFieldValue "x") (.float "0.1") = .ok (.float tenth.nearest) ∧
    tenth.nearest.isFinite = true ∧
    ∀ y : Binary64, |tenth.value - tenth.nearest.toRat| ≤ |tenth.value - y.toRat| := by
  obtain ⟨-, hvalue, hnull, hcongr, hnumber⟩ :=
    evaluation_as_written [("null", .null)] repeating
  have heval : repeating.evaluate [("null", .null)] =
      some (.object [("x", .string "last"), ("y", .array [.null, .null])]) := rfl
  have hother : ∀ name, repeating.Mentions name →
      Entries.get? name [("null", Value.null), ("other", .null)] =
        Entries.get? name [("null", .null)] := by
    intro name hname
    have hother : name ≠ "other" := by
      rintro rfl
      unfold repeating at hname
      grind [cases Mentions]
    simp [Entries.get?, hother.symm]
  have hint := (hnumber (.missingFieldValue "x")
    ⟨false, "9223372036854775808".toList, none, none⟩ 'e' "9223372036854775808" rfl (.inl rfl)
    rfl).1 rfl
  have hfinite : tenth.nearest.isFinite = true := by decide
  obtain ⟨-, hfloat, -, hnearest⟩ :=
    hnumber (.missingFieldValue "x") tenth 'e' "0.1" rfl (.inl rfl) rfl
  refine ⟨heval, (hvalue _).1 heval, (hnull _).1 ?_, fun h => ?_, hcongr _ hother, ?_, hfloat,
    hfinite, hnearest hfinite⟩
  · rw [heval]
    rfl
  · have hx := (hnull _).2 h
    rw [heval] at hx
    cases hx
  · rw [hint]
    exact if_neg (by decide)

/-- Whether what was read of a text is a field `a` whose argument `x` is this float. -/
def readsArgument (float : String) : Except Syntax.SyntaxError (List Syntax.Item) → Bool
  | .ok [.executable (.operation ⟨none, .query, [], [],
      [.field ⟨none, "a", [⟨"x", .float text⟩], [], some ⟨1, 2⟩⟩ []], some ⟨1, 1⟩⟩)] =>
    text = float
  | _ => false

/-- A float of a document evaluates to null, though the document says none. -/
theorem infinite_argument_evaluates_to_null :
    ∃ document operation field, Document.parse "\x7ba(x:1e400)\x7d" = .ok document ∧
      document.operations = [("", operation)] ∧ operation.selections = [.field field []] ∧
      field.arguments = [⟨"x", .float (ofFloatText "1e400")⟩] ∧
      (float (ofFloatText "1e400")).evaluate [] = some .null := by
  have hread : readsArgument "1e400" (Syntax.Item.parse "\x7ba(x:1e400)\x7d") = true := by
    decide +kernel
  have hinfinite : ofFloatText "1e400" = ⟨0x7ff0000000000000⟩ := by decide
  unfold readsArgument at hread
  split at hread
  · next text hitems =>
    obtain rfl := of_decide_eq_true hread
    refine ⟨_, _, _, by rw [Document.parse, hitems]; rfl, rfl, rfl, rfl, ?_⟩
    rw [hinfinite]
    rfl
  · cases hread

end Literal

end GraphQL
