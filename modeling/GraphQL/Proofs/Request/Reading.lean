import GraphQL.Proofs.Response.Reading
import GraphQL.Request

/-!
Requests, errors and paths that are read back from their own JSON.

A request comes back as it is (`Request.ofTree?_toJson`), and variables that are null or empty are
read as those that are left out (`Request.ofTree?_member`).
-/

set_option autoImplicit false

namespace GraphQL

open Json

namespace Request

/-- No object has a key twice. -/
structure Proper (r : Request) : Prop where
  variableValues : (Value.object r.variableValues).Distinct
  extensions : (Value.object r.extensions).Distinct

def fields (r : Request) : Entries (Option Value) :=
  [("query", r.query.map .string), ("operationName", r.operationName.map .string),
    ("variables", if r.variableValues.isEmpty then none else some (.object r.variableValues)),
    ("extensions", if r.extensions.isEmpty then none else some (.object r.extensions))]

theorem toJson_eq_present (r : Request) : r.toJson = .object (Tree.present r.fields) := by
  obtain ⟨query, name, variableValues, extensions⟩ := r
  cases query <;> cases name <;> cases variableValues <;> cases extensions <;> rfl

/-- An object in the request is read with what is left of the limit. -/
theorem object?_of_mem_fields {r : Request} (key : String) {members : Entries Value}
    (hkey : (key, some (.object members)) ∈ r.fields) (h : (Value.object members).Distinct)
    {limit : Nat} (hlimit : r.toJson.depth ≤ limit) :
    (Tree.ofValue (.object members)).object? (limit - 1) = some members := by
  have hdepth : (Value.object members).depth < r.toJson.depth := by
    rw [toJson_eq_present]
    exact Tree.depth_lt_of_present key hkey
  exact Tree.object?_ofValue h (by omega)

theorem ofTree?_toJson {r : Request} (h : r.Proper) {limit : Nat}
    (hlimit : r.toJson.depth ≤ limit) : ofTree? limit (.ofValue r.toJson) = some r := by
  obtain ⟨found, hfound, hfield⟩ := Tree.record?_present r.fields
    (by decide : ["query", "operationName", "variables", "extensions"].Nodup) rfl false
  have htext : ∀ text : Option String,
      ((text.map Value.string).map fun v => Tree.optional? Tree.string? (.ofValue v)).getD
        (some none) = some text := by
    intro text
    cases text with
    | none => rfl
    | some s =>
      rw [Option.map_some, Option.map_some, Tree.ofValue]
      rfl
  have hquery : Tree.field? found "query" (some none) (Tree.optional? Tree.string?) =
      some r.query := (hfield (some none) _ rfl).trans (htext r.query)
  have hname : Tree.field? found "operationName" (some none) (Tree.optional? Tree.string?) =
      some r.operationName := (hfield (some none) _ rfl).trans (htext r.operationName)
  have hvariables : Tree.field? found "variables" (some none)
      (Tree.optional? (Tree.object? (limit - 1))) =
        some (if r.variableValues.isEmpty then none else some r.variableValues) := by
    refine (hfield (some none) _ rfl).trans ?_
    cases hempty : r.variableValues.isEmpty with
    | true => rfl
    | false =>
      have hread := object?_of_mem_fields "variables" (by simp [fields, hempty])
        h.variableValues hlimit
      simp only [Bool.false_eq_true, if_false, Option.map_some, Option.getD_some]
      rw [Tree.ofValue] at hread ⊢
      rw [Tree.optional?, hread, Option.map_some]
      simp
  have hextensions : Tree.field? found "extensions" (some []) (Tree.object? (limit - 1)) =
      some r.extensions := by
    refine (hfield (some []) _ rfl).trans ?_
    cases hempty : r.extensions.isEmpty with
    | true =>
      rw [List.isEmpty_iff.1 hempty]
      rfl
    | false =>
      simp only [Bool.false_eq_true, if_false, Option.map_some, Option.getD_some]
      exact object?_of_mem_fields "extensions" (by simp [fields, hempty]) h.extensions hlimit
  have hvalues : (if r.variableValues.isEmpty then none else some r.variableValues).getD [] =
      r.variableValues := by
    cases r.variableValues <;> rfl
  rw [ofTree?, toJson_eq_present]
  refine (congrArg (Option.bind · _) hfound).trans ?_
  simp only [Option.bind_eq_bind, Option.bind_some, hquery, hname, hvariables, hextensions, hvalues]
  rfl

/-- Null variables, empty ones and absent ones are read alike, whatever else is given. -/
theorem ofTree?_member {before after : List (Option String × Tree)}
    (hbefore : ∀ e ∈ before, e.1 ≠ some "variables") (hafter : ∀ e ∈ after, e.1 ≠ some "variables")
    {limit : Nat} (hlimit : 1 < limit) {tree : Tree} (htree : tree = .null ∨ tree = .object []) :
    ofTree? limit (.object (before ++ (some "variables", tree) :: after)) =
      ofTree? limit (.object (before ++ after)) := by
  have hrecord := Tree.record?_member (by simp : "variables" ∈
    ["query", "operationName", "variables", "extensions"]) false hbefore hafter tree
  have hvalues : ∃ read, Tree.optional? (Tree.object? (limit - 1)) tree = some read ∧
      read.getD [] = [] := by
    rcases htree with rfl | rfl
    · exact ⟨none, rfl, rfl⟩
    · obtain ⟨room, rfl⟩ : ∃ room, limit = room + 2 := ⟨limit - 2, by omega⟩
      exact ⟨some [], by simp [Tree.optional?, Tree.object?, Tree.toValue, Tree.toMembers,
        Value.members, Entries.ofList, Entries.insertAll], rfl⟩
  obtain ⟨read, hread, hempty⟩ := hvalues
  rw [ofTree?, ofTree?]
  revert hrecord
  generalize Tree.record? _ false (.object (before ++ (some "variables", tree) :: after)) = found
  generalize Tree.record? _ false (.object (before ++ after)) = found'
  intro hrecord
  cases hrecord with
  | none => rfl
  | @some found found' h =>
    obtain ⟨hother, hgiven, habsent⟩ := h
    simp only [Option.bind_eq_bind, Option.bind_some]
    rw [Tree.field?_congr (hother "query" (by decide)), Tree.field?_congr (hother "operationName"
      (by decide)), Tree.field?_congr (hother "extensions" (by decide))]
    simp only [Tree.field?, hgiven, habsent, hread, hempty, Option.bind_some, Option.getD_none]

end Request

/-- Requests, errors and paths are read back from their own JSON, at every limit that leaves room
for it; and it makes no difference to a request whether its variables are null, empty or left
out. -/
theorem reads_back_from_json :
    (∀ r : Request, r.Proper → ∀ limit, r.toJson.depth < limit →
        Request.ofTree? limit (.ofValue r.toJson) = some r) ∧
      (∀ e : Error, e.Proper → ∀ limit, e.toJson.depth < limit →
        Error.ofTree? limit (.ofValue e.toJson) = some e) ∧
      (∀ path : Path, path.Proper → Path.ofTree? (.ofValue path.toJson) = some path) ∧
      ∀ (before after : List (Option String × Tree)) (limit : Nat),
        (∀ e ∈ before, e.1 ≠ some "variables") → (∀ e ∈ after, e.1 ≠ some "variables") →
        1 < limit →
          Request.ofTree? limit (.object (before ++ (some "variables", .null) :: after)) =
              Request.ofTree? limit (.object (before ++ after)) ∧
            Request.ofTree? limit (.object (before ++ (some "variables", .object []) :: after)) =
              Request.ofTree? limit (.object (before ++ after)) := by
  refine ⟨fun r hr limit hlimit => Request.ofTree?_toJson hr (Nat.le_of_lt hlimit),
    fun e he limit hlimit => Error.ofTree?_toJson he ?_,
    fun path hpath => Path.ofTree?_toJson hpath,
    fun before after limit hbefore hafter hlimit =>
      ⟨Request.ofTree?_member hbefore hafter hlimit (.inl rfl),
        Request.ofTree?_member hbefore hafter hlimit (.inr rfl)⟩⟩
  by_cases hempty : e.extensions = []
  · have hpositive : 0 < e.toJson.depth := Nat.succ_pos _
    rw [hempty]
    exact Nat.lt_of_le_of_lt hpositive hlimit
  · exact Nat.lt_trans (Error.depth_extensions_lt_toJson hempty) hlimit

/-- A request with nested variables, an error with an empty path, and a path with a key that looks
like a number. -/
theorem reads_back_from_json_sample :
    let r : Request := ⟨some "{a}", none, [("x", .array [.object [("y", .null)]])], []⟩
    let e : Error := ⟨"no", [⟨1, 2⟩], some [], [("code", .string "E")]⟩
    let path : Path := [.key "0", .index 18446744073709551615, .key "a"]
    Request.ofTree? 8 (.ofValue r.toJson) = some r ∧
      Error.ofTree? 8 (.ofValue e.toJson) = some e ∧
      Path.ofTree? (.ofValue path.toJson) = some path ∧
      Request.ofTree? 8
          (.object [(some "query", .string (some "{a}")), (some "variables", .null)]) =
        Request.ofTree? 8 (.object [(some "query", .string (some "{a}"))]) := by
  intro r e path
  obtain ⟨hrequest, herror, hread, hvariables⟩ := reads_back_from_json
  have hr : r.Proper := by
    constructor <;>
      simp [r, Value.Distinct, Value.DistinctItems, Value.DistinctMembers, Entries.keys]
  have he : e.Proper := by
    constructor
    · rintro path ⟨⟩ i hi
      cases hi
    · simp [e, Value.Distinct, Value.DistinctMembers, Entries.keys]
  have hpath : path.Proper := by
    intro i hi
    obtain rfl : i = 18446744073709551615 := by simpa [path] using hi
    decide
  exact ⟨hrequest r hr 8 (by decide +kernel), herror e he 8 (by decide +kernel), hread path hpath,
    (hvariables [(some "query", .string (some "{a}"))] [] 8 (by simp) (by simp) (by decide)).1⟩

end GraphQL
