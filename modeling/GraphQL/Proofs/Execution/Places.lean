import GraphQL.Proofs.Execution.Agreement
import GraphQL.Proofs.Execution.ErrorOrder

/-!
How the order of errors sees two positions.

Data that holds both positions tells them apart by their places. Where it has a null in their stead
it tells nothing but how deep they are (`Conceals.comparePlaces_eq`), and the order goes on to the
texts of the errors (`Ranked.errorLE_iff`).
-/

set_option autoImplicit false

namespace GraphQL

open Json Execution

namespace Json.Value

/-- The place of an element of a value. -/
def place? : Value → PathElement → Place
  | object members, .key k => (memberAt? k 0 members).map Prod.fst
  | array _, .index i => some i
  | _, _ => none

/-- The members of an object stand in the order of their keys. -/
theorem place?_object {keys : List String} {vs : List Value} (hk : keys.Nodup)
    (hl : keys.length = vs.length) {i : Nat} {e : PathElement}
    (he : (keys.map PathElement.key)[i]? = some e) :
    (object (keys.zip vs)).place? e = some i := by
  rw [List.getElem?_map, Option.map_eq_some_iff] at he
  obtain ⟨k, hk', rfl⟩ := he
  obtain ⟨hi, rfl⟩ := List.getElem?_eq_some_iff.1 hk'
  have hget : Entries.get? keys[i] (keys.zip vs) = some vs[i] :=
    Entries.get?_of_mem (by rwa [Entries.keys_zip hl])
      (List.mem_of_getElem? (i := i)
        (List.getElem?_zip_eq_some.2 ⟨hk', List.getElem?_eq_getElem (by omega)⟩))
  rw [place?, memberAt?_eq, hget, Entries.keys_zip hl, hk.idxOf_getElem i hi, Nat.zero_add]
  rfl

theorem place?_array (vs : List Value) {n i : Nat} {e : PathElement}
    (he : ((List.range n).map PathElement.index)[i]? = some e) :
    (array vs).place? e = some i := by
  obtain ⟨-, rfl⟩ := PathElement.eq_of_getElem?_indices he
  rfl

end Json.Value

namespace Execution

theorem places_cons (v : Value) (e : PathElement) (below : Path) :
    places (some v) (e :: below) = v.place? e :: places (v.follow? [e]) below := by
  cases v with
  | object members =>
    cases e with
    | index i => rfl
    | key k =>
      rw [Value.follow?_key, Value.place?, places, memberAt?_eq]
      cases Entries.get? k members <;> rfl
  | array items =>
    cases e with
    | index i =>
      rw [Value.follow?_index]
      rfl
    | key k => rfl
  | _ => cases e <;> rfl

theorem places_none_cons (e : PathElement) (below : Path) :
    places none (e :: below) = none :: places none below := by
  cases e <;> rfl

theorem places_none (path : Path) : places none path = List.replicate path.length none := by
  induction path with
  | nil => rfl
  | cons e path ih => rw [places_none_cons, ih, List.length_cons, List.replicate_succ]

/-- Below a null there are no places. -/
theorem places_of_isNull {v : Value} (h : v.isNull = true) (path : Path) :
    places (some v) path = List.replicate path.length none := by
  cases v with
  | null =>
    cases path with
    | nil => rfl
    | cons e path =>
      rw [places_cons]
      cases e <;> exact congrArg (none :: ·) (places_none path)
  | _ => cases h

theorem comparePlaces_cons_self (p : Place) (ps qs : List Place) :
    comparePlaces (p :: ps) (p :: qs) = comparePlaces ps qs := by
  have hp : p.compare p = .eq := Std.ReflCmp.compare_self
  rw [comparePlaces, hp]
  rfl

theorem comparePlaces_self (ps : List Place) : comparePlaces ps ps = .eq := by
  induction ps with
  | nil => rfl
  | cons p ps ih => rw [comparePlaces_cons_self, ih]

theorem comparePlaces_replicate (n m : Nat) :
    comparePlaces (List.replicate n none) (List.replicate m none) = compare n m := by
  induction n generalizing m with
  | zero => cases m <;> rfl
  | succ n ih =>
    cases m with
    | zero => rfl
    | succ m =>
      rw [List.replicate_succ, List.replicate_succ, comparePlaces_cons_self, ih]
      simp [Nat.compare_eq_ite_lt]

/-- What leads to both positions does not count. -/
theorem comparePlaces_append (p q : Path) : ∀ (common : Path) (v : Option Value),
    comparePlaces (places v (common ++ p)) (places v (common ++ q)) =
      comparePlaces (places (v.bind (·.follow? common)) p)
        (places (v.bind (·.follow? common)) q)
  | [], none => rfl
  | [], some _ => rfl
  | e :: common, none => by
    rw [List.cons_append, List.cons_append, places_none_cons, places_none_cons,
      comparePlaces_cons_self, comparePlaces_append p q common none]
    rfl
  | e :: common, some v => by
    rw [List.cons_append, List.cons_append, places_cons, places_cons, comparePlaces_cons_self,
      comparePlaces_append p q common, Option.bind_some, Value.follow?_cons v e common]

/-- The first position is above the second one, or it is beside what leads to that, with the lower
place if the data has anything there. -/
inductive Ranked (data : Value) (p q : Path) : Prop where
  | within : p <+: q → Ranked data p q
  | apart {common : Path} {e f : PathElement} {p' q' : Path} : p = common ++ e :: p' →
      q = common ++ f :: q' → e ≠ f →
      (∀ v, data.follow? common = some v → v.isNull = false →
        (v.place? e).compare (v.place? f) = .lt) →
      Ranked data p q

/-- The data does not tell two positions apart: they are the same, or at most a null stands where
their paths part. -/
def Conceals (data : Value) (p q : Path) : Prop :=
  p = q ∨ ∃ (common : Path) (e f : PathElement) (p' q' : Path), p = common ++ e :: p' ∧
    q = common ++ f :: q' ∧ e ≠ f ∧ ∀ v, data.follow? common = some v → v.isNull = true

theorem Conceals.comparePlaces_eq {data : Value} {p q : Path} (h : Conceals data p q) :
    comparePlaces (places (some data) p) (places (some data) q) = compare p.length q.length := by
  obtain rfl | ⟨common, e, f, p', q', rfl, rfl, -, hnull⟩ := h
  · rw [comparePlaces_self]
    exact Std.ReflCmp.compare_self.symm
  · have hplaces : ∀ path, places (data.follow? common) path =
        List.replicate path.length none := by
      intro path
      cases hv : data.follow? common with
      | none => exact places_none path
      | some v => exact places_of_isNull (hnull v hv) path
    rw [comparePlaces_append, Option.bind_some, hplaces, hplaces, comparePlaces_replicate]
    simp [Nat.compare_eq_ite_lt]

namespace Ranked

variable {data : Value} {p q : Path}

theorem comparePlaces_eq_lt (h : Ranked data p q) (hc : ¬ Conceals data p q) :
    comparePlaces (places (some data) p) (places (some data) q) = .lt := by
  cases h with
  | within h =>
    obtain ⟨below, rfl⟩ := h
    cases below with
    | nil => exact absurd (.inl (by rw [List.append_nil])) hc
    | cons e below =>
      have happend := comparePlaces_append [] (e :: below) p (some data)
      rw [List.append_nil, Option.bind_some] at happend
      rw [happend]
      cases data.follow? p with
      | none =>
        rw [places_none_cons]
        rfl
      | some v =>
        rw [places_cons]
        rfl
  | @apart common e f p' q' hp hq hef hv =>
    have hsome : ∃ v, data.follow? common = some v ∧ v.isNull = false := by
      by_contra hnone
      refine hc (.inr ⟨common, e, f, p', q', hp, hq, hef, fun v hfollow => ?_⟩)
      by_contra hnull
      exact hnone ⟨v, hfollow, eq_false_of_ne_true hnull⟩
    obtain ⟨v, hfollow, hnull⟩ := hsome
    rw [hp, hq, comparePlaces_append, Option.bind_some, hfollow, places_cons, places_cons,
      comparePlaces, hv v hfollow hnull]
    rfl

/-- Below a null no position has a place. -/
theorem null_cons {v : Value} (h : Ranked v p q) (e : PathElement) :
    Ranked .null (e :: p) (e :: q) := by
  cases h with
  | within h => exact .within ((List.prefix_cons_inj e).2 h)
  | @apart common f g p' q' hp hq hfg _ =>
    refine @apart _ _ _ (e :: common) f g p' q' (by rw [hp]; rfl) (by rw [hq]; rfl) hfg ?_
    intro u hfollow
    cases e <;> cases hfollow

/-- Positions below one element are ranked as in the value that stands there. -/
theorem cons {v : Value} {e : PathElement} (h : Ranked v p q)
    (hv : ∀ below, data.follow? (e :: below) = v.follow? below) :
    Ranked data (e :: p) (e :: q) := by
  cases h with
  | within h => exact .within ((List.prefix_cons_inj e).2 h)
  | @apart common f g p' q' hp hq hfg hlt =>
    refine @apart data _ _ (e :: common) f g p' q' (by rw [hp]; rfl) (by rw [hq]; rfl) hfg ?_
    rw [hv]
    exact hlt

end Ranked

/-- The order of errors at positions that the data does not tell apart: the less deep ones first,
then by the texts of the paths and by the messages. -/
def compareConcealed (a b : Error) : Ordering :=
  (compare (a.path.getD []).length (b.path.getD []).length).then
    ((compare (pathText a) (pathText b)).then (compare a.message b.message))

theorem Ranked.errorLE_iff {data : Value} {a b : Error}
    (h : Ranked data (a.path.getD []) (b.path.getD [])) :
    errorLE data a b = true ↔
      (Conceals data (a.path.getD []) (b.path.getD []) → (compareConcealed a b).isLE = true) := by
  have hcompare : (ErrorKey.ofError data a).compare (.ofError data b) =
      (comparePlaces (places (some data) (a.path.getD []))
        (places (some data) (b.path.getD []))).then
        ((compare (pathText a) (pathText b)).then (compare a.message b.message)) := rfl
  rw [errorLE, hcompare]
  by_cases hc : Conceals data (a.path.getD []) (b.path.getD [])
  · rw [hc.comparePlaces_eq]
    exact ⟨fun h _ => h, fun h => h hc⟩
  · rw [h.comparePlaces_eq_lt hc]
    exact ⟨fun _ h => absurd h hc, fun _ => rfl⟩

/-- The first of the recorded errors is the first of the sorted ones as well if no other one stands
before it. -/
theorem head_sortErrors_eq_iff {data : Value} {first reported : Error} {later rest : List Error}
    (h : sortErrors data (first :: later) = reported :: rest) :
    reported = first ↔ ∀ e ∈ later, errorLE data first e = true := by
  have hsorted := pairwise_sortErrors data (first :: later)
  rw [h] at hsorted
  have hmem : ∀ {e}, e ∈ first :: later → e ∈ reported :: rest := by
    intro e he
    rw [← h]
    exact mem_sortErrors.2 he
  have hle : ∀ {e}, e ∈ first :: later → errorLE data reported e = true := by
    intro e he
    rcases List.mem_cons.1 (hmem he) with rfl | he
    · exact errorLE_refl data e
    · exact List.rel_of_pairwise_cons hsorted he
  constructor
  · rintro rfl e he
    exact hle (List.mem_cons_of_mem _ he)
  · intro hfirst
    have hreported : reported ∈ first :: later := by
      rw [← mem_sortErrors, h]
      exact List.mem_cons_self
    have hback : errorLE data first reported = true := by
      rcases List.mem_cons.1 hreported with rfl | hlater
      · exact errorLE_refl data reported
      · exact hfirst reported hlater
    -- Errors that the order does not tell apart stay in the order in which they were recorded.
    have hkind := filter_mergeSort (errorLE_trans data) (errorLE_total data)
      (l := first :: later) (p := fun e => errorLE data e first) fun a _ b hb ha _ => by
        rcases List.mem_cons.1 hb with rfl | hlater
        · exact ha
        · exact errorLE_trans data _ _ _ ha (hfirst b hlater)
    have hhead : errorLE data reported first = true := hle List.mem_cons_self
    rw [← sortErrors_eq, h] at hkind
    simp only [List.filter_cons, hhead, errorLE_refl, if_true] at hkind
    exact (List.cons.inj hkind).1

end Execution

end GraphQL
