import GraphQL.Execution.Complete
import GraphQL.Proofs.Entries

/-!
Completions of lists and objects in terms of those of their parts: a part that propagates makes the
whole propagate, and otherwise the values of the parts stand in their order.
-/

set_option autoImplicit false

namespace GraphQL

open Json

theorem TypeRef.isNull_of_coerceOutput {schema : Schema} {type : TypeRef} {value v : Value}
    (hv : value.isNull = false) (h : type.coerceOutput schema value = .ok v) :
    v.isNull = false := by
  unfold coerceOutput at h
  split at h
  case h_1 => split at h <;> cases h; rfl
  case h_9 =>
    split at h
    · cases h
      exact hv
    · split at h
      · split at h
        · cases h
          exact hv
        · cases h
      · cases h
    · cases h
  all_goals cases h
  all_goals rfl

namespace Execution.Completion

theorem eq_of_map_value {vs ws : List Value} (h : vs.map value = ws.map value) : vs = ws :=
  (List.map_inj_right fun _ _ h => value.inj h).1 h

theorem exists_of_map_fst {β : Type} {outs : List (Completion × β)} {vs : List Value}
    (h : outs.map Prod.fst = vs.map value) {i : Nat} {v : Value} (hv : vs[i]? = some v) :
    ∃ b, outs[i]? = some (value v, b) := by
  have hout : (outs.map Prod.fst)[i]? = some (value v) := by
    rw [h, List.getElem?_map, hv, Option.map_some]
  rw [List.getElem?_map] at hout
  obtain ⟨⟨c, b⟩, hd, rfl⟩ := Option.map_eq_some_iff.1 hout
  exact ⟨b, hd⟩

theorem values?_eq_some_iff {cs : List Completion} {vs : List Value} :
    values? cs = some vs ↔ cs = vs.map value := by
  induction cs generalizing vs with
  | nil => cases vs <;> simp [values?]
  | cons c cs ih =>
    cases c with
    | propagate => cases vs <;> simp [values?]
    | value v =>
      simp only [values?, Option.map_eq_some_iff, ih]
      constructor
      · rintro ⟨ws, rfl, rfl⟩
        rfl
      · intro h
        cases vs with
        | nil => cases h
        | cons w ws =>
          obtain ⟨hv, rfl⟩ := List.cons.inj h
          cases hv
          exact ⟨ws, rfl, rfl⟩

theorem values?_eq_none_iff {cs : List Completion} : values? cs = none ↔ propagate ∈ cs := by
  induction cs with
  | nil => simp [values?]
  | cons c cs ih => cases c <;> simp [values?, ih]

theorem array_eq_value_iff {cs : List Completion} {v : Value} :
    array cs = value v ↔ ∃ vs, cs = vs.map value ∧ v = .array vs := by
  unfold array
  split
  · next vs h =>
    rw [values?_eq_some_iff] at h
    subst h
    constructor
    · intro h
      cases h
      exact ⟨vs, rfl, rfl⟩
    · rintro ⟨ws, hws, rfl⟩
      rw [eq_of_map_value hws]
  · next h =>
    rw [values?_eq_none_iff] at h
    constructor
    · nofun
    · rintro ⟨ws, rfl, -⟩
      simp at h

theorem array_eq_propagate_iff {cs : List Completion} :
    array cs = propagate ↔ propagate ∈ cs := by
  rw [← values?_eq_none_iff]
  unfold array
  split <;> simp [*]

theorem object_eq_value_iff {keys : List String} {cs : List Completion} {v : Value}
    (hk : keys.Nodup) (hl : cs.length = keys.length) :
    object keys cs = value v ↔ ∃ vs, cs = vs.map value ∧ v = .object (keys.zip vs) := by
  have htake : cs.take keys.length = cs := by rw [← hl, List.take_length]
  unfold object
  rw [htake]
  split
  · next vs h =>
    rw [values?_eq_some_iff] at h
    subst h
    have hzip : Entries.ofList (keys.zip vs) = keys.zip vs :=
      Entries.ofList_of_nodup (by rwa [Entries.keys_zip (by simpa using hl.symm)])
    rw [hzip]
    constructor
    · intro h
      cases h
      exact ⟨vs, rfl, rfl⟩
    · rintro ⟨ws, hws, rfl⟩
      rw [eq_of_map_value hws]
  · next h =>
    rw [values?_eq_none_iff] at h
    constructor
    · nofun
    · rintro ⟨ws, rfl, -⟩
      simp at h

theorem isNull_object (keys : List String) (cs : List Completion) :
    (object keys cs).isNull = false := by
  unfold object
  split <;> rfl

theorem isNull_array (cs : List Completion) : (array cs).isNull = false := by
  unfold array
  split <;> rfl

theorem object_eq_propagate_iff {keys : List String} {cs : List Completion}
    (hl : cs.length = keys.length) : object keys cs = propagate ↔ propagate ∈ cs := by
  have htake : cs.take keys.length = cs := by rw [← hl, List.take_length]
  rw [← values?_eq_none_iff]
  unfold object
  rw [htake]
  split <;> simp [*]

end Execution.Completion

end GraphQL
