import GraphQL.Proofs.Coercion.Bindings
import GraphQL.Proofs.Json.Trees
import GraphQL.Proofs.Schema.InputFields

/-!
Values that are passed through variables, and the same values written in place.

A canonical value stays as it is under coercion to its type (`TypeRef.coerceInput_of_canonical`),
so that coercing a variable's value again, as an argument, changes nothing. Therefore an argument
may be a variable or the literal that it was given (`FieldDefinition.coerceArguments_inline`).
-/

set_option autoImplicit false

namespace GraphQL

open Json

namespace TypeRef

variable {schema : Schema}

theorem coerceItems_eq_ok {coerce : Value → Except InvalidValue Value} {items : List Value}
    (h : ∀ item ∈ items, coerce item = .ok item) (index : Nat) :
    coerceItems coerce index items = .ok items := by
  induction items generalizing index with
  | nil => rfl
  | cons item items ih =>
    have hitems := ih (fun item hi => h item (List.mem_cons_of_mem _ hi)) (index + 1)
    rw [coerceItems, h item List.mem_cons_self]
    simp [hitems, Except.map]

theorem coerceInputScalar_of_canonical {type : TypeRef} {v : Value} (hb : type.isBuiltin = true)
    (hv : v.isNull = false) (h : schema.Canonical type v) : type.coerceInputScalar v = .ok v := by
  cases h with
  | null => cases hv
  | string | id | boolean => rfl
  | int hlow hhigh =>
    simp [coerceInputScalar, Value.int32?, Value.int, Number.toInt?, Option.filter, hlow, hhigh]
  | float hfinite => simp [coerceInputScalar, Value.isFiniteNumber, hfinite]
  | nonNull | list | scalar | enum | input => cases hb

/-- Coercion to a type keeps what is canonical if coercion to the named types in it does. -/
theorem coerceInputWith_of_canonical {named : String → Value → Except InvalidValue Value}
    {bound : Nat}
    (hn : ∀ name v, v.isNull = false → v.depth ≤ bound → schema.Canonical (.named name) v →
      named name v = .ok v) {type : TypeRef} {v : Value} (hbound : v.depth ≤ bound)
    (h : schema.Canonical type v) : coerceInputWith named type v = .ok v := by
  induction type generalizing v with
  | nonNull inner ih =>
    cases h with
    | null hnull => cases hnull
    | nonNull hv hc =>
      cases v with
      | null => cases hv
      | _ => simpa [coerceInputWith] using ih hbound hc
  | list inner ih =>
    cases h with
    | null => rfl
    | @list _ items hitems =>
      have hdepth : Value.depthItems items < bound := hbound
      have hcoerce : ∀ item ∈ items, coerceInputWith named inner item = .ok item := by
        intro item hi
        have := Value.depth_le_depthItems hi
        exact ih (by omega) (hitems item hi)
      rw [coerceInputWith, coerceItems_eq_ok hcoerce]
      rfl
  | named name =>
    cases v with
    | null => rfl
    | _ => simpa [coerceInputWith] using hn name _ rfl hbound h
  | string | int | float | id | boolean =>
    cases v with
    | null => rfl
    | _ => simpa [coerceInputWith] using coerceInputScalar_of_canonical rfl rfl h

end TypeRef

namespace InputObjectType

variable {schema : Schema} {coerce : TypeRef → Value → Except InvalidValue Value}

theorem coerceFields_of_canonicalAll {provided : Entries Value}
    {fields : Entries (InputValue Literal)} {members : Entries Value}
    (hdistinct : (Entries.keys fields).Nodup) (h : schema.CanonicalAll fields members)
    (hprovided : ∀ name ∈ Entries.keys fields,
      Entries.get? name provided = Entries.get? name members)
    (hc : ∀ type, ∀ e ∈ members, schema.Canonical type e.2 → coerce type e.2 = .ok e.2) :
    coerceFields coerce provided fields = .ok members := by
  induction fields generalizing members with
  | nil =>
    cases h
    rfl
  | cons e fields ih =>
    obtain ⟨name, d⟩ := e
    obtain ⟨hname, hdistinct⟩ := List.nodup_cons.1 hdistinct
    have hget := hprovided name List.mem_cons_self
    cases h with
    | @given _ _ v _ members hv h =>
      have hrest := ih hdistinct h
        (fun name' hn' => by
          have hne : ¬ name = name' := fun heq => hname (heq ▸ hn')
          rw [hprovided name' (List.mem_cons_of_mem _ hn'), Entries.get?, if_neg hne])
        fun type e he => hc type e (List.mem_cons_of_mem _ he)
      rw [Entries.get?, if_pos rfl] at hget
      simp [coerceFields, fieldValue?, hget, hc d.type (name, v) List.mem_cons_self hv, hrest,
        Except.map]
    | omitted hdefault hnull h =>
      have habsent : Entries.get? name members = none :=
        Entries.get?_eq_none_iff.2 fun hmem => hname (h.keys_sublist.subset hmem)
      have hrest :=
        ih hdistinct h (fun name' hn' => hprovided name' (List.mem_cons_of_mem _ hn')) hc
      simp [coerceFields, fieldValue?, hget, habsent, hdefault, hnull, hrest]

theorem coerce_of_canonicalAll {type : InputObjectType} {members : Entries Value}
    (hdistinct : (Entries.keys type.fields).Nodup) (h : schema.CanonicalAll type.fields members)
    (hc : ∀ type, ∀ e ∈ members, schema.Canonical type e.2 → coerce type e.2 = .ok e.2) :
    type.coerce coerce members = .ok members := by
  have hknown : (Entries.keys members).find? (!Entries.contains · type.fields) = none := by
    rw [List.find?_eq_none]
    intro name hname
    have hdeclared := h.keys_sublist.subset hname
    cases hget : Entries.get? name type.fields with
    | none => exact absurd hdeclared (Entries.get?_eq_none_iff.1 hget)
    | some d => simp [Entries.contains, hget]
  rw [InputObjectType.coerce, hknown]
  exact coerceFields_of_canonicalAll hdistinct h (fun _ _ => rfl) hc

end InputObjectType

theorem Schema.coerceNamedInput_of_canonical {schema : Schema} (hs : schema.DistinctFields)
    {room : Nat} {name : String} {v : Value} (hnull : v.isNull = false) (hroom : v.depth ≤ room)
    (h : schema.Canonical (.named name) v) : schema.coerceNamedInput room name v = .ok v := by
  induction room using Nat.strongRecOn generalizing name v with
  | ind room ih =>
    cases h with
    | null => cases hnull
    | scalar _ hd => simp [coerceNamedInput, hd]
    | enum hd hmem => simp [coerceNamedInput, hd, Value.string?, hmem]
    | @input _ type members hd hall =>
      have hdepth : Value.depthMembers members + 1 ≤ room := hroom
      obtain ⟨inner, rfl⟩ : ∃ inner, room = inner + 1 := ⟨room - 1, by omega⟩
      have hcoerce : ∀ type, ∀ e ∈ members, schema.Canonical type e.2 →
          TypeRef.coerceInputWith (schema.coerceNamedInput inner) type e.2 = .ok e.2 := by
        intro type e he hc
        have := Value.depth_le_depthMembers he
        exact TypeRef.coerceInputWith_of_canonical
          (fun name v hv hbound hc => ih inner (by omega) hv hbound hc) (by omega) hc
      simp [coerceNamedInput, hd, InputObjectType.coerce_of_canonicalAll (hs name type hd) hall
        hcoerce, Except.map]

theorem TypeRef.coerceInput_of_nonNull {schema : Schema} {type : TypeRef} {value v : Value}
    (h : (nonNull type).coerceInput schema value = .ok v) :
    type.coerceInput schema value = .ok v := by
  cases value with
  | null => cases h
  | _ => simpa [coerceInput, coerceInputWith] using h

/-- Coercion changes nothing that is canonical already. -/
theorem TypeRef.coerceInput_of_canonical {schema : Schema} (hs : schema.DistinctFields)
    {type : TypeRef} {v : Value} (h : schema.Canonical type v) :
    type.coerceInput schema v = .ok v :=
  coerceInputWith_of_canonical
    (fun _ _ hnull hbound hc => schema.coerceNamedInput_of_canonical hs hnull (by omega) hc)
    (Nat.le_refl v.depth) h

namespace Literal

mutual

/-- Whether there is no variable in a literal. -/
def isClosed : Literal → Bool
  | .variable _ => false
  | .list items => isClosedItems items
  | .object fields => isClosedFields fields
  | _ => true

def isClosedItems : List Literal → Bool
  | [] => true
  | item :: items => item.isClosed && isClosedItems items

def isClosedFields : List (String × Literal) → Bool
  | [] => true
  | (_, literal) :: fields => literal.isClosed && isClosedFields fields

end

mutual

theorem evaluate_of_isClosed {bindings : Entries Value} :
    ∀ {literal : Literal}, literal.isClosed = true →
      literal.evaluate bindings = some literal.evaluateConst
  | .variable _, h => nomatch h
  | .int _, _ | .float _, _ | .string _, _ | .boolean _, _ | .null, _ | .enum _, _ => rfl
  | .list _, h => by
    rw [evaluateConst, evaluate, evaluate, evaluateItems_of_isClosedItems h]
    rfl
  | .object _, h => by
    rw [evaluateConst, evaluate, evaluate, evaluateFields_of_isClosedFields h]
    rfl

theorem evaluateItems_of_isClosedItems {bindings : Entries Value} :
    ∀ {items : List Literal}, isClosedItems items = true →
      evaluateItems bindings items = evaluateItems [] items
  | [], _ => rfl
  | item :: items, h => by
    obtain ⟨hitem, hitems⟩ := Bool.and_eq_true_iff.1 h
    rw [evaluateItems, evaluateItems, evaluate_of_isClosed hitem,
      evaluateItems_of_isClosedItems hitems]
    rfl

theorem evaluateFields_of_isClosedFields {bindings : Entries Value} :
    ∀ {fields : List (String × Literal)}, isClosedFields fields = true →
      evaluateFields bindings fields = evaluateFields [] fields
  | [], _ => rfl
  | (name, literal) :: fields, h => by
    obtain ⟨hliteral, hfields⟩ := Bool.and_eq_true_iff.1 h
    rw [evaluateFields, evaluateFields, evaluate_of_isClosed hliteral,
      evaluate_of_isClosed hliteral, evaluateFields_of_isClosedFields hfields]

end

end Literal

/-- A declared value that both lists of arguments give, and that coerces alike. -/
def InputValue.SameValue (schema : Schema) (bindings : Entries Value)
    (given given' : List (Argument Literal)) (d : InputValue Literal) : Prop :=
  d.argumentValue? bindings given = d.argumentValue? bindings given' ∨
    ∃ value value' v, d.argumentValue? bindings given = some value ∧
      d.argumentValue? bindings given' = some value' ∧
      d.type.coerceInput schema value = .ok v ∧ d.type.coerceInput schema value' = .ok v

theorem coerceDefined_congr {schema : Schema} {bindings : Entries Value}
    {given given' : List (Argument Literal)} {declared : Entries (InputValue Literal)}
    (h : ∀ e ∈ declared, e.2.SameValue schema bindings given given') :
    coerceDefined schema bindings given declared =
      coerceDefined schema bindings given' declared := by
  induction declared with
  | nil => rfl
  | cons e declared ih =>
    obtain ⟨name, d⟩ := e
    have hrest := ih fun e he => h e (List.mem_cons_of_mem _ he)
    rcases h (name, d) List.mem_cons_self with heq | ⟨value, value', v, hv, hv', hc, hc'⟩
    · rw [coerceDefined, coerceDefined, heq, hrest]
    · simp only [coerceDefined, hv, hv', hc, hc', hrest]

/-- Whatever is looked for by name among arguments, two of the same name are found alike. -/
theorem find?_append_cons_eq (p : String → Bool) {x y : Argument Literal} (hname : x.name = y.name)
    (before after : List (Argument Literal)) :
    (before ++ x :: after).find? (fun a => p a.name) =
        (before ++ y :: after).find? (fun a => p a.name) ∨
      (before ++ x :: after).find? (fun a => p a.name) = some x ∧
        (before ++ y :: after).find? (fun a => p a.name) = some y := by
  simp only [List.find?_append, List.find?_cons, hname]
  cases before.find? (fun a => p a.name) with
  | some a => exact .inl rfl
  | none =>
    cases p y.name with
    | true => exact .inr ⟨rfl, rfl⟩
    | false => exact .inl rfl

theorem FieldDefinition.coerceArguments_congr {schema : Schema} {bindings : Entries Value}
    {f : FieldDefinition} {x y : Argument Literal} {before after : List (Argument Literal)}
    (hname : x.name = y.name)
    (h : ∀ e ∈ f.arguments,
      e.2.SameValue schema bindings (before ++ x :: after) (before ++ y :: after)) :
    f.coerceArguments schema bindings (before ++ x :: after) =
      f.coerceArguments schema bindings (before ++ y :: after) := by
  unfold coerceArguments
  rcases find?_append_cons_eq (fun name => !Entries.contains name f.arguments) hname before after
    with heq | ⟨hx, hy⟩
  · rw [heq, coerceDefined_congr h]
  · simp only [hx, hy, hname]

/-- A variable that is declared once and the literal that it has the value of are the same argument
to every field, for a type as declared or the nullable one of it: coercion of what is coerced
already neither changes nor refuses it. -/
theorem FieldDefinition.coerceArguments_inline {schema : Schema} (hs : schema.Loaded)
    {definitions : List (VariableDefinition Literal)} {d : VariableDefinition Literal}
    (hd : d ∈ definitions) (honce : ∀ d' ∈ definitions, d'.name = d.name → d' = d)
    {literal : Literal} (hclosed : literal.isClosed = true) {provided bindings : Entries Value}
    (hvalue : d.value? provided = some literal.evaluateConst)
    (hb : coerceVariables schema definitions provided = .ok bindings) :
    (∃ v, Entries.get? d.name bindings = some v ∧
        ∀ type, d.type = type ∨ d.type = .nonNull type → type.coerceInput schema v = .ok v) ∧
      ∀ (f : FieldDefinition) (name : String) (before after : List (Argument Literal)),
        (∀ e ∈ f.arguments, e.2.name = name → d.type = e.2.type ∨ d.type = .nonNull e.2.type) →
        f.coerceArguments schema bindings (before ++ ⟨name, .variable d.name⟩ :: after) =
          f.coerceArguments schema bindings (before ++ ⟨name, literal⟩ :: after) := by
  have hbinds := (coerceVariables_complete schema definitions provided).2.1 bindings hb
  obtain ⟨v, hget⟩ : ∃ v, Entries.get? d.name bindings = some v := by
    have hmem := (hbinds.mem_keys_iff d.name).2 ⟨d, hd, rfl, by rw [hvalue]; rfl⟩
    cases hget : Entries.get? d.name bindings with
    | none => exact absurd hmem (Entries.get?_eq_none_iff.1 hget)
    | some v => exact ⟨v, rfl⟩
  have hcoerce : d.type.coerceInput schema literal.evaluateConst = .ok v := by
    obtain ⟨_, d', _, value, rfl, hname, hvalue', hv, -⟩ := (hbinds.get?_eq_some_iff _ _).1 hget
    obtain rfl := honce d' (by simp) hname
    cases hvalue.symm.trans hvalue'
    exact hv
  have hinner : ∀ type, d.type = type ∨ d.type = .nonNull type →
      type.coerceInput schema literal.evaluateConst = .ok v := by
    rintro type (rfl | htype)
    · exact hcoerce
    · exact TypeRef.coerceInput_of_nonNull (htype ▸ hcoerce)
  have hagain : ∀ type, d.type = type ∨ d.type = .nonNull type →
      type.coerceInput schema v = .ok v := fun type htype =>
    TypeRef.coerceInput_of_canonical hs.distinctFields
      (TypeRef.canonical_of_coerceInput (hinner type htype))
  refine ⟨⟨v, hget, hagain⟩, fun f name before after hf => ?_⟩
  refine coerceArguments_congr rfl fun e he => ?_
  rcases find?_append_cons_eq (· == e.2.name) (x := ⟨name, .variable d.name⟩)
    (y := ⟨name, literal⟩) rfl before after with heq | ⟨hx, hy⟩
  · exact .inl (by rw [InputValue.argumentValue?, InputValue.argumentValue?, heq])
  · have hname : name = e.2.name := by simpa using List.find?_some hx
    have htype := hf e he hname.symm
    refine .inr ⟨v, literal.evaluateConst, v, ?_, ?_, hagain _ htype, hinner _ htype⟩
    · simp [InputValue.argumentValue?, hx, Literal.evaluate, hget]
    · simp [InputValue.argumentValue?, hy, Literal.evaluate_of_isClosed hclosed]

theorem FieldDefinition.coerceArguments_inline_wrapped :
    (⟨"f", .int, [("a", ⟨"a", .list .boolean, none⟩)], none⟩ : FieldDefinition).coerceArguments
        (.small none) [("x", .array [.bool true])] [⟨"a", .variable "x"⟩] =
      (⟨"f", .int, [("a", ⟨"a", .list .boolean, none⟩)], none⟩ : FieldDefinition).coerceArguments
        (.small none) [("x", .array [.bool true])] [⟨"a", .boolean true⟩] := by
  have h := @coerceArguments_inline _ (.parse Schema.parse_small)
    [⟨"x", .nonNull (.list .boolean), none, none⟩] _ List.mem_cons_self (by simp)
    (.boolean true) rfl [("x", .bool true)] [("x", .array [.bool true])] rfl rfl
  exact h.2 ⟨"f", .int, [("a", ⟨"a", .list .boolean, none⟩)], none⟩ "a" [] [] (by simp)

end GraphQL
