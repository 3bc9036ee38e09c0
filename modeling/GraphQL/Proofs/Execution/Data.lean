import GraphQL.Path
import GraphQL.Proofs.Entries
import GraphQL.Proofs.Execution.Completions

/-!
Following paths in the data of a response.
-/

set_option autoImplicit false

namespace GraphQL

open Json

def Json.Value.follow? : Value → Path → Option Value
  | v, [] => some v
  | .object members, .key k :: path => (Entries.get? k members).bind (follow? · path)
  | .array items, .index i :: path => items[i]?.bind (follow? · path)
  | _, _ :: _ => none

namespace Json.Value

theorem follow?_key (members : Entries Value) (k : String) :
    (object members).follow? [.key k] = Entries.get? k members := by
  rw [follow?]
  cases Entries.get? k members <;> rfl

theorem follow?_index (items : List Value) (i : Nat) :
    (array items).follow? [.index i] = items[i]? := by
  rw [follow?]
  cases items[i]? <;> rfl

theorem follow?_cons (v : Value) (e : PathElement) (below : Path) :
    v.follow? (e :: below) = (v.follow? [e]).bind (follow? · below) := by
  cases v with
  | object members =>
    cases e with
    | index i => rfl
    | key k =>
      rw [follow?_key]
      rfl
  | array items =>
    cases e with
    | index i =>
      rw [follow?_index]
      rfl
    | key k => rfl
  | _ => cases e <;> rfl

end Json.Value

/-- What a value shows of itself without what it holds. -/
inductive Outline where
  | leaf (v : Value)
  | array (length : Nat)
  | object (keys : List String)

def Json.Value.outline : Value → Outline
  | array items => .array items.length
  | object members => .object (Entries.keys members)
  | v => .leaf v

theorem Path.join_append (path : Path) (element : PathElement) (below : Path) :
    path.join element ++ below = path ++ element :: below := by
  rw [join, List.append_assoc, List.singleton_append]

namespace PathElement

theorem eq_of_getElem?_keys {β : Type} {entries : Entries β} {i : Nat} {e : PathElement}
    (h : ((Entries.keys entries).map key)[i]? = some e) :
    ∃ k b, entries[i]? = some (k, b) ∧ e = .key k := by
  simp only [Entries.keys, List.map_map, List.getElem?_map, Option.map_eq_some_iff] at h
  obtain ⟨⟨k, b⟩, hk, rfl⟩ := h
  exact ⟨k, b, hk, rfl⟩

theorem eq_of_getElem?_indices {n i : Nat} {e : PathElement}
    (h : ((List.range n).map index)[i]? = some e) : i < n ∧ e = .index i := by
  rw [List.getElem?_map, Option.map_eq_some_iff] at h
  obtain ⟨j, hj, rfl⟩ := h
  obtain ⟨hlt, rfl⟩ := List.getElem?_eq_some_iff.1 hj
  rw [List.length_range] at hlt
  exact ⟨hlt, by rw [List.getElem_range]⟩

end PathElement

namespace Execution

/-- A value holds the values of parts under their elements, and nothing else. -/
structure Holds (elements : List PathElement) (vs : List Value) (v : Value) : Prop where
  follow?_cons : ∀ (i : Nat) e u below, elements[i]? = some e → vs[i]? = some u →
    v.follow? (e :: below) = u.follow? below
  mem_of_follow? : ∀ e below u, v.follow? (e :: below) = some u → e ∈ elements

theorem Holds.object {keys : List String} {vs : List Value} (hk : keys.Nodup)
    (hl : keys.length = vs.length) :
    Holds (keys.map .key) vs (.object (keys.zip vs)) where
  follow?_cons i e u below he hu := by
    rw [List.getElem?_map, Option.map_eq_some_iff] at he
    obtain ⟨k, hik, rfl⟩ := he
    have hmem : (k, u) ∈ keys.zip vs :=
      List.mem_of_getElem? (i := i) (List.getElem?_zip_eq_some.2 ⟨hik, hu⟩)
    have hget := Entries.get?_of_mem (by rwa [Entries.keys_zip hl]) hmem
    rw [Value.follow?, hget, Option.bind_some]
  mem_of_follow? e below u h := by
    cases e with
    | index i => cases h
    | key k =>
      obtain ⟨v, hv, -⟩ := Option.bind_eq_some_iff.1 h
      exact List.mem_map_of_mem (List.of_mem_zip (Entries.mem_of_get? hv)).1

theorem Holds.array (vs : List Value) :
    Holds ((List.range vs.length).map .index) vs (.array vs) where
  follow?_cons i e u below he hu := by
    obtain ⟨-, rfl⟩ := PathElement.eq_of_getElem?_indices he
    rw [Value.follow?, hu, Option.bind_some]
  mem_of_follow? e below u h := by
    cases e with
    | key k => cases h
    | index i =>
      obtain ⟨v, hv, -⟩ := Option.bind_eq_some_iff.1 h
      obtain ⟨hlt, -⟩ := List.getElem?_eq_some_iff.1 hv
      exact List.mem_map_of_mem (List.mem_range.2 hlt)

/-- How the completions of parts make up that of the whole: a part that propagates makes the whole
propagate, and otherwise the whole is built from the values of the parts. -/
structure Combines (elements : List PathElement) (combine : List Completion → Completion)
    (build : List Value → Value) : Prop where
  value_iff : ∀ cs v, cs.length = elements.length →
    (combine cs = .value v ↔ ∃ vs, cs = vs.map .value ∧ v = build vs)
  propagate_iff : ∀ cs, cs.length = elements.length →
    (combine cs = .propagate ↔ .propagate ∈ cs)
  holds : ∀ vs, elements.length = vs.length → Holds elements vs (build vs)
  outline : ∀ vs vs', elements.length = vs.length → elements.length = vs'.length →
    (build vs).outline = (build vs').outline

theorem Combines.object {keys : List String} (hk : keys.Nodup) :
    Combines (keys.map .key) (.object keys) fun vs => .object (keys.zip vs) where
  value_iff cs v hl := Completion.object_eq_value_iff hk (by simpa using hl)
  propagate_iff cs hl := Completion.object_eq_propagate_iff (by simpa using hl)
  holds vs hl := .object hk (by simpa using hl)
  outline vs vs' hl hl' := by
    rw [List.length_map] at hl hl'
    rw [Value.outline, Value.outline, Entries.keys_zip hl, Entries.keys_zip hl']

theorem Combines.array (n : Nat) : Combines ((List.range n).map .index) .array .array where
  value_iff cs v _ := Completion.array_eq_value_iff
  propagate_iff cs _ := Completion.array_eq_propagate_iff
  holds vs hl := by
    rw [List.length_map, List.length_range] at hl
    subst hl
    exact .array vs
  outline vs vs' hl hl' := congrArg Outline.array (hl.symm.trans hl')

end Execution

end GraphQL
