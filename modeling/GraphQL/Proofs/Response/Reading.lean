import GraphQL.Proofs.Json.Trees
import GraphQL.Response.Response

/-!
Responses that are read back from their own JSON.

Locations, paths and errors come back as they are (`Error.ofTree?_toJson`), and so does a response,
except that null data comes back as absent data (`Response.reads_back_iff`).
-/

set_option autoImplicit false

namespace GraphQL

open Json

namespace Location

/-- The members of a location. -/
def fields (l : Location) : Entries (Option Value) :=
  [("line", some (.int l.line.toNat)), ("column", some (.int l.column.toNat))]

theorem toJson_eq_present (l : Location) : l.toJson = .object (Tree.present l.fields) := rfl

theorem ofTree?_toJson (l : Location) : ofTree? (.ofValue l.toJson) = some l := by
  obtain ⟨found, hfound, hfield⟩ := Tree.record?_present l.fields
    (by decide : ["line", "column"].Nodup) rfl false
  have hline := Tree.natBelow?_ofValue l.line.toNat_lt
  have hcolumn := Tree.natBelow?_ofValue l.column.toNat_lt
  rw [ofTree?, toJson_eq_present]
  refine (congrArg (Option.bind · _) hfound).trans ?_
  simp only [Option.bind_eq_bind, Option.bind_some]
  rw [hfield none _ rfl, hfield none _ rfl, Option.map_some, Option.map_some, hline, hcolumn]
  simp

end Location

namespace Path

/-- Indices have 64 bits. -/
def Proper (path : Path) : Prop := ∀ i, .index i ∈ path → i < Nat.pow 2 64

theorem ofTree?_toJson {path : Path} (h : path.Proper) :
    ofTree? (.ofValue path.toJson) = some path := by
  refine Tree.list?_ofItems fun element helement => ?_
  cases element with
  | index i =>
    have hread := Tree.natBelow?_ofValue (h i helement)
    rw [Value.int, Tree.ofValue] at hread
    rw [PathElement.toJson, Value.int, Tree.ofValue, PathElement.ofTree?, hread]
    · rfl
    · simp
  | key k => rw [PathElement.toJson, Tree.ofValue, PathElement.ofTree?, Option.map_some]

end Path

/-- A list that is left out if it is empty is read as itself. -/
theorem Json.Tree.getD_read_nonempty {α : Type} {as : List α} {v : Value}
    {read : Tree → Option (List α)} (h : read (.ofValue v) = some as) :
    (((if as.isEmpty then none else some v).map fun v => read (.ofValue v)).getD (some [])) =
      some as := by
  cases as with
  | nil => rfl
  | cons => exact h

namespace Error

/-- Indices have 64 bits, and no extension has a key twice. -/
structure Proper (e : Error) : Prop where
  path : ∀ path, e.path = some path → path.Proper
  extensions : (Value.object e.extensions).Distinct

def fields (e : Error) : Entries (Option Value) :=
  [("message", some (.string e.message)),
    ("locations",
      if e.locations.isEmpty then none else some (.array (e.locations.map Location.toJson))),
    ("path", e.path.map Path.toJson),
    ("extensions", if e.extensions.isEmpty then none else some (.object e.extensions))]

theorem toJson_eq_present (e : Error) : e.toJson = .object (Tree.present e.fields) := by
  obtain ⟨message, locations, path, extensions⟩ := e
  cases locations <;> cases path <;> cases extensions <;> rfl

theorem ofTree?_toJson {e : Error} (h : e.Proper) {limit : Nat}
    (hlimit : (Value.object e.extensions).depth < limit) :
    ofTree? limit (.ofValue e.toJson) = some e := by
  obtain ⟨found, hfound, hfield⟩ := Tree.record?_present e.fields
    (by decide : ["message", "locations", "path", "extensions"].Nodup) rfl false
  have hmessage : Tree.field? found "message" (some "") Tree.string? = some e.message :=
    (hfield (some "") _ rfl).trans (by rw [Option.map_some, Tree.ofValue]; rfl)
  have hlocations : Tree.field? found "locations" (some []) (Tree.list? Location.ofTree?) =
      some e.locations :=
    (hfield (some []) _ rfl).trans
      (Tree.getD_read_nonempty (Tree.list?_ofItems fun l _ => l.ofTree?_toJson))
  have hpath : Tree.field? found "path" (some none) (Tree.optional? Path.ofTree?) =
      some e.path := by
    refine (hfield (some none) _ rfl).trans ?_
    cases hp : e.path with
    | none => rfl
    | some path =>
      have hread := Path.ofTree?_toJson (h.path path hp)
      rw [Path.toJson, Tree.ofValue] at hread
      simp only [Option.map_some, Option.getD_some, Path.toJson, Tree.ofValue, Tree.optional?,
        hread]
  have hextensions : Tree.field? found "extensions" (some []) (Tree.object? (limit - 1)) =
      some e.extensions :=
    (hfield (some []) _ rfl).trans
      (Tree.getD_read_nonempty (Tree.object?_ofValue h.extensions (by omega)))
  rw [ofTree?, toJson_eq_present]
  refine (congrArg (Option.bind · _) hfound).trans ?_
  simp only [Option.bind_eq_bind, Option.bind_some, hmessage, hlocations, hpath, hextensions]
  rfl

end Error

namespace Response

/-- Indices in paths have 64 bits, and no object has a key twice. -/
structure Proper (r : Response) : Prop where
  data : ∀ data, r.data = some data → data.Distinct
  errors : ∀ e ∈ r.errors, e.Proper
  extensions : (Value.object r.extensions).Distinct

/-- The response without its data if that is null. -/
def withoutNull (r : Response) : Response := { r with data := r.data.filter (!·.isNull) }

def fields (r : Response) : Entries (Option Value) :=
  [("data", r.data),
    ("errors", if r.errors.isEmpty then none else some (.array (r.errors.map Error.toJson))),
    ("extensions", if r.extensions.isEmpty then none else some (.object r.extensions))]

theorem toJson_eq_present (r : Response) : r.toJson = .object (Tree.present r.fields) := by
  obtain ⟨data, errors, extensions⟩ := r
  cases data <;> cases errors <;> cases extensions <;> rfl

theorem withoutNull_eq_iff {r : Response} : r.withoutNull = r ↔ r.data ≠ some .null := by
  obtain ⟨data, errors, extensions⟩ := r
  cases data with
  | none => simp [withoutNull]
  | some data => cases data <;> simp [withoutNull, Value.isNull]

end Response

theorem Error.depth_extensions_lt_toJson {e : Error} (hne : e.extensions ≠ []) :
    (Value.object e.extensions).depth < e.toJson.depth := by
  have hempty : e.extensions.isEmpty = false := List.isEmpty_eq_false_iff.2 hne
  rw [toJson_eq_present]
  exact Tree.depth_lt_of_present "extensions" (by simp [fields, hempty])

/-- The extensions of an error are nested less deep than a response with the error. -/
theorem Error.depth_extensions_lt {r : Response} {e : Error} (he : e ∈ r.errors)
    (hne : e.extensions ≠ []) : (Value.object e.extensions).depth + 2 < r.toJson.depth := by
  have herrors : r.errors.isEmpty = false := List.isEmpty_eq_false_iff.2 (List.ne_nil_of_mem he)
  have hobject := Error.depth_extensions_lt_toJson hne
  have hitem : e.toJson.depth ≤ Value.depthItems (r.errors.map toJson) :=
    Value.depth_le_depthItems (List.mem_map_of_mem he)
  have harray : (Value.array (r.errors.map toJson)).depth < r.toJson.depth := by
    rw [Response.toJson_eq_present]
    exact Tree.depth_lt_of_present "errors" (by simp [Response.fields, herrors])
  rw [Value.depth] at harray
  omega

namespace Response

theorem ofTree?_toJson {r : Response} (h : r.Proper) {limit : Nat} (hroom : 4 ≤ limit)
    (hlimit : r.toJson.depth ≤ limit) :
    ofTree? limit (.ofValue r.toJson) = some r.withoutNull := by
  obtain ⟨found, hfound, hfield⟩ := Tree.record?_present r.fields
    (by decide : ["data", "errors", "extensions"].Nodup) rfl false
  have hdata : Tree.field? found "data" (some none) (Tree.optional? (Tree.toValue (limit - 1))) =
      some r.withoutNull.data := by
    refine (hfield (some none) _ rfl).trans ?_
    rw [withoutNull]
    cases hd : r.data with
    | none => rfl
    | some data =>
      have hdepth : data.depth < r.toJson.depth := by
        rw [toJson_eq_present]
        exact Tree.depth_lt_of_present "data" (by simp [fields, hd])
      have hread : (Tree.ofValue data).toValue (limit - 1) = some data :=
        Tree.toValue_ofValue (h.data data hd) (by omega)
      rw [Option.map_some, Option.getD_some]
      cases data
      case null => rfl
      all_goals
        rw [Tree.ofValue] at hread ⊢
        rw [Tree.optional?, hread]
        · rfl
        · nofun
  have herrors : Tree.field? found "errors" (some []) (Tree.list? (Error.ofTree? (limit - 2))) =
      some r.errors := by
    refine (hfield (some []) _ rfl).trans
      (Tree.getD_read_nonempty (Tree.list?_ofItems fun e he => ?_))
    refine Error.ofTree?_toJson (h.errors e he) ?_
    by_cases hempty : e.extensions = []
    · rw [hempty, Value.depth, Value.depthMembers]
      omega
    · have := Error.depth_extensions_lt he hempty
      omega
  have hextensions : Tree.field? found "extensions" (some []) (Tree.object? (limit - 1)) =
      some r.extensions := by
    by_cases hempty : r.extensions = []
    · exact (hfield (some []) _ rfl).trans (by rw [hempty]; rfl)
    · have hdepth : (Value.object r.extensions).depth < r.toJson.depth := by
        rw [toJson_eq_present]
        exact Tree.depth_lt_of_present "extensions"
          (by simp [fields, List.isEmpty_eq_false_iff.2 hempty])
      exact (hfield (some []) _ rfl).trans
        (Tree.getD_read_nonempty (Tree.object?_ofValue h.extensions (by omega)))
  rw [ofTree?, toJson_eq_present]
  refine (congrArg (Option.bind · _) hfound).trans ?_
  simp only [Option.bind_eq_bind, Option.bind_some, hdata, herrors, hextensions]
  rfl

/-- A response is read back from its own JSON, except that null data is read as absent data. The
text is taken to be read as the JSON that was written, and to be nested as deep as can be read. -/
theorem reads_back_iff {r : Response} (h : r.Proper) (hdepth : r.toJson.depth ≤ nestingLimit)
    (hread : Tree.parse r.render = some (.ofValue r.toJson)) :
    parse? r.render = some r.withoutNull ∧ (parse? r.render = some r ↔ r.data ≠ some .null) := by
  have hparse : parse? r.render = some r.withoutNull := by
    rw [parse?, hread, Option.bind_some, ofTree?_toJson h (by decide) hdepth]
  exact ⟨hparse, by rw [hparse, Option.some_inj, withoutNull_eq_iff]⟩

/-- A null item, and the error that it stands for. -/
def nullItem : Response :=
  ⟨some (.object [("a", .array [.null])]),
    [⟨"no", [⟨1, 3⟩], some [.key "a", .index 0], [("code", .string "E")]⟩], []⟩

theorem nullItem_reads_back :
    nullItem.Proper ∧ nullItem.toJson.depth ≤ nestingLimit ∧
      Tree.parse nullItem.render = some (.ofValue nullItem.toJson) ∧
      parse? nullItem.render = some nullItem.withoutNull ∧
      (parse? nullItem.render = some nullItem ↔ nullItem.data ≠ some .null) := by
  have hproper : nullItem.Proper := by
    refine ⟨?_, ?_, ?_⟩
    · rintro data ⟨⟩
      simp [Value.Distinct, Value.DistinctItems, Value.DistinctMembers, Entries.keys]
    · intro e he
      obtain rfl := List.mem_singleton.1 he
      refine ⟨?_, ?_⟩
      · rintro path ⟨⟩ i hi
        obtain rfl : i = 0 := by simpa using hi
        decide
      · simp [Value.Distinct, Value.DistinctMembers, Entries.keys]
    · simp [nullItem, Value.Distinct, Value.DistinctMembers, Entries.keys]
  have hdepth : nullItem.toJson.depth ≤ nestingLimit := by decide +kernel
  have hread : Tree.parse nullItem.render = some (.ofValue nullItem.toJson) := by
    refine Tree.parse_of_scan [
      .openObject, .string "data", .colon,
        .openObject, .string "a", .colon, .openArray, .null, .closeArray, .closeObject, .comma,
      .string "errors", .colon, .openArray, .openObject,
        .string "message", .colon, .string "no", .comma,
        .string "locations", .colon, .openArray, .openObject,
          .string "line", .colon, .number (some (.int 1)), .comma,
          .string "column", .colon, .number (some (.int 3)), .closeObject, .closeArray, .comma,
        .string "path", .colon, .openArray, .string "a", .comma, .number (some (.int 0)),
          .closeArray, .comma,
        .string "extensions", .colon, .openObject, .string "code", .colon, .string "E",
          .closeObject,
      .closeObject, .closeArray, .closeObject] (by decide +kernel) (by rfl)
  exact ⟨hproper, hdepth, hread, reads_back_iff hproper hdepth hread⟩

/-- Null data is not told from absent data. -/
theorem null_data_not_read_back :
    ¬ ∀ r : Response, r.Proper → r.toJson.depth ≤ nestingLimit →
      Tree.parse r.render = some (.ofValue r.toJson) → parse? r.render = some r := by
  intro h
  have hread : Tree.parse (⟨some .null, [.ofMessage "no"], []⟩ : Response).render =
      some (.ofValue (⟨some .null, [.ofMessage "no"], []⟩ : Response).toJson) :=
    Tree.parse_of_scan [
      .openObject, .string "data", .colon, .null, .comma,
      .string "errors", .colon, .openArray, .openObject,
        .string "message", .colon, .string "no", .closeObject, .closeArray, .closeObject]
      (by decide +kernel) (by rfl)
  have hempty : (Value.object []).Distinct := ⟨List.nodup_nil, trivial⟩
  have hproper : (⟨some .null, [.ofMessage "no"], []⟩ : Response).Proper := by
    refine ⟨?_, fun e he => ?_, hempty⟩
    · rintro data ⟨⟩
      trivial
    · obtain rfl := List.mem_singleton.1 he
      exact ⟨nofun, hempty⟩
  have hback := h _ hproper (by decide +kernel) hread
  rw [parse?, hread] at hback
  cases hback

end Response

end GraphQL
