import GraphQL.Execution.Errors

/-!
The order of errors is a total preorder, and sorting by it is stable.

Errors that the order does not tell apart have the same path, so the sorted errors are settled by
the errors at each path and the order in which these were recorded (`filter_sortErrors_eq`).
-/

set_option autoImplicit false

namespace GraphQL

open Json

section

variable {α : Type} {le : α → α → Bool}

/-- Elements that no comparison tells apart keep their order when they are sorted. -/
theorem filter_mergeSort (htrans : ∀ a b c, le a b → le b c → le a c)
    (htotal : ∀ a b, le a b || le b a) {l : List α} {p : α → Bool}
    (hp : ∀ a ∈ l, ∀ b ∈ l, p a → p b → le a b) : (l.mergeSort le).filter p = l.filter p := by
  have hpairwise : (l.filter p).Pairwise fun a b => le a b := by
    refine List.pairwise_of_forall_mem_list fun a ha b hb => ?_
    obtain ⟨ha, hpa⟩ := List.mem_filter.1 ha
    obtain ⟨hb, hpb⟩ := List.mem_filter.1 hb
    exact hp a ha b hb hpa hpb
  have hsub : (l.filter p).Sublist (l.mergeSort le) :=
    List.sublist_mergeSort htrans htotal hpairwise List.filter_sublist
  have hfilter := hsub.filter p
  simp only [List.filter_filter, Bool.and_self] at hfilter
  refine (hfilter.eq_of_length ?_).symm
  exact ((List.mergeSort_perm l le).filter p).length_eq.symm

/-- Sorted lists are equal if they have the same elements of each kind in the same order, where
elements of a kind are those that no comparison tells apart. -/
theorem eq_of_filter_eq : ∀ {l l' : List α}, (∀ a ∈ l, le a a) → (∀ a ∈ l', le a a) →
    l.Pairwise (fun a b => le a b) → l'.Pairwise (fun a b => le a b) →
    (∀ a, a ∈ l ∨ a ∈ l' →
      l.filter (fun b => le a b && le b a) = l'.filter fun b => le a b && le b a) → l = l'
  | [], [], _, _, _, _, _ => rfl
  | [], b :: l', _, hrefl, _, _, h => by
    have hb := hrefl b List.mem_cons_self
    simpa [hb] using h b (.inr List.mem_cons_self)
  | a :: l, [], hrefl, _, _, _, h => by
    have ha := hrefl a List.mem_cons_self
    simpa [ha] using h a (.inl List.mem_cons_self)
  | a :: l, b :: l', hrefl, hrefl', hsorted, hsorted', h => by
    have ha := hrefl a List.mem_cons_self
    have hb := hrefl' b List.mem_cons_self
    have hmem : a ∈ b :: l' := by
      have hfilter : a ∈ (a :: l).filter fun c => le a c && le c a :=
        List.mem_filter.2 ⟨List.mem_cons_self, by simp [ha]⟩
      rw [h a (.inl List.mem_cons_self)] at hfilter
      exact (List.mem_filter.1 hfilter).1
    have hmem' : b ∈ a :: l := by
      have hfilter : b ∈ (b :: l').filter fun c => le b c && le c b :=
        List.mem_filter.2 ⟨List.mem_cons_self, by simp [hb]⟩
      rw [← h b (.inr List.mem_cons_self)] at hfilter
      exact (List.mem_filter.1 hfilter).1
    have hab : le a b := by
      rcases List.mem_cons.1 hmem' with rfl | hmem'
      · exact ha
      · exact List.rel_of_pairwise_cons hsorted hmem'
    have hba : le b a := by
      rcases List.mem_cons.1 hmem with rfl | hmem
      · exact hb
      · exact List.rel_of_pairwise_cons hsorted' hmem
    have hhead := h a (.inl List.mem_cons_self)
    simp only [List.filter_cons, ha, hab, hba, Bool.and_self, if_true] at hhead
    obtain ⟨rfl, -⟩ := List.cons.inj hhead
    refine congrArg (a :: ·) (eq_of_filter_eq (fun c hc => hrefl c (List.mem_cons_of_mem _ hc))
      (fun c hc => hrefl' c (List.mem_cons_of_mem _ hc)) hsorted.of_cons hsorted'.of_cons
      fun c hmem => ?_)
    have hc := h c (hmem.imp (List.mem_cons_of_mem _) (List.mem_cons_of_mem _))
    simp only [List.filter_cons] at hc
    split at hc
    · exact (List.cons.inj hc).2
    · exact hc

end

namespace Execution

instance : Std.OrientedCmp Place.compare where
  eq_swap {a b} := by
    cases a with
    | none => cases b <;> rfl
    | some i =>
      cases b with
      | none => rfl
      | some j => exact Std.OrientedOrd.eq_swap (α := Nat)

instance : Std.TransCmp Place.compare where
  isLE_trans {a b c} hab hbc := by
    cases c with
    | none => cases a <;> rfl
    | some k =>
      cases b with
      | none => cases hbc
      | some j =>
        cases a with
        | none => cases hab
        | some i => exact Std.TransOrd.isLE_trans (α := Nat) hab hbc

theorem comparePlaces_eq : comparePlaces = List.compareLex Place.compare := by
  funext ps qs
  induction ps generalizing qs with
  | nil => cases qs <;> rfl
  | cons p ps ih =>
    cases qs with
    | nil => rfl
    | cons q qs => rw [comparePlaces, List.compareLex_cons_cons, ih]

namespace ErrorKey

instance : Std.TransCmp ErrorKey.compare := by
  have hplaces : Std.TransCmp fun a b : ErrorKey => comparePlaces a.places b.places := by
    rw [comparePlaces_eq]
    have hlex : Std.TransCmp (List.compareLex Place.compare) := inferInstance
    exact { eq_swap := hlex.eq_swap, isLE_trans := hlex.isLE_trans }
  exact inferInstanceAs (Std.TransCmp (compareLex
    (fun a b : ErrorKey => comparePlaces a.places b.places)
    (compareLex (compareOn ErrorKey.path) (compareOn ErrorKey.message))))

theorem path_eq_of_compare {a b : ErrorKey} (h : a.compare b = .eq) : a.path = b.path := by
  rw [compare, Ordering.then_eq_eq, Ordering.then_eq_eq] at h
  exact Std.LawfulEqOrd.eq_of_compare h.2.1

end ErrorKey

/-- An error may stand before another one. -/
def errorLE (data : Value) (a b : Error) : Bool :=
  ((ErrorKey.ofError data a).compare (.ofError data b)).isLE

theorem errorLE_trans (data : Value) (a b c : Error) (hab : errorLE data a b)
    (hbc : errorLE data b c) : errorLE data a c := Std.TransCmp.isLE_trans hab hbc

theorem errorLE_total (data : Value) (a b : Error) : errorLE data a b || errorLE data b a := by
  have hswap : (ErrorKey.ofError data b).compare (.ofError data a) =
    ((ErrorKey.ofError data a).compare (.ofError data b)).swap := Std.OrientedCmp.eq_swap
  unfold errorLE
  rw [hswap]
  cases (ErrorKey.ofError data a).compare (.ofError data b) <;> rfl

theorem errorLE_refl (data : Value) (a : Error) : errorLE data a a := by
  simpa using errorLE_total data a a

theorem sortErrors_eq (data : Value) (errors : List Error) :
    sortErrors data errors = errors.mergeSort (errorLE data) := by
  have hkeys : (errors.mergeSort (errorLE data)).map (fun e => (ErrorKey.ofError data e, e)) =
      (errors.map fun e => (ErrorKey.ofError data e, e)).mergeSort
        fun a b => (a.1.compare b.1).isLE := List.map_mergeSort fun _ _ _ _ => rfl
  rw [sortErrors, ← hkeys, List.map_map]
  exact List.map_id _

theorem sortErrors_perm (data : Value) (errors : List Error) :
    (sortErrors data errors).Perm errors := by
  rw [sortErrors_eq]
  exact List.mergeSort_perm _ _

theorem mem_sortErrors {data : Value} {errors : List Error} {e : Error} :
    e ∈ sortErrors data errors ↔ e ∈ errors := (sortErrors_perm data errors).mem_iff

theorem pairwise_sortErrors (data : Value) (errors : List Error) :
    (sortErrors data errors).Pairwise fun a b => errorLE data a b := by
  rw [sortErrors_eq]
  exact List.pairwise_mergeSort (errorLE_trans data) (errorLE_total data) errors

/-- The text of the path of an error, as the order of errors sees it. -/
def pathText (e : Error) : String := (e.path.getD []).render

theorem pathText_eq_of_errorLE {data : Value} {a b : Error} (hab : errorLE data a b)
    (hba : errorLE data b a) : pathText a = pathText b :=
  ErrorKey.path_eq_of_compare (Std.OrientedCmp.isLE_antisymm hab hba)

/-- Sorted errors of some paths are the same for any data and any records that agree on these paths,
as long as each of the paths is known by its text. -/
theorem filter_sortErrors_eq {data data' : Value} {errors errors' : List Error}
    {keep : Error → Bool}
    (hkey : ∀ e, e ∈ errors ∨ e ∈ errors' → keep e →
      ErrorKey.ofError data e = ErrorKey.ofError data' e)
    (htext : ∀ a b, a ∈ errors ∨ a ∈ errors' → b ∈ errors ∨ b ∈ errors' → keep a → keep b →
      pathText a = pathText b → a.path = b.path)
    (hpath : ∀ e, e ∈ errors ∨ e ∈ errors' → keep e →
      errors.filter (fun a => a.path = e.path) = errors'.filter fun a => a.path = e.path) :
    (sortErrors data errors).filter keep = (sortErrors data' errors').filter keep := by
  have hle : ∀ {a b}, a ∈ errors' → b ∈ errors' → keep a → keep b →
      errorLE data' a b = errorLE data a b := by
    intro a b ha hb hka hkb
    rw [errorLE, errorLE, hkey a (.inr ha) hka, hkey b (.inr hb) hkb]
  refine eq_of_filter_eq (fun e _ => errorLE_refl data e) (fun e _ => errorLE_refl data e)
    ((pairwise_sortErrors data errors).filter keep) ?_ fun e he => ?_
  · refine ((pairwise_sortErrors data' errors').filter keep).imp_of_mem fun ha hb hab => ?_
    obtain ⟨ha, hka⟩ := List.mem_filter.1 ha
    obtain ⟨hb, hkb⟩ := List.mem_filter.1 hb
    rwa [← hle (mem_sortErrors.1 ha) (mem_sortErrors.1 hb) hka hkb]
  · have hke : keep e := by
      rcases he with he | he <;> exact (List.mem_filter.1 he).2
    have he' : e ∈ errors ∨ e ∈ errors' :=
      he.imp (fun he => mem_sortErrors.1 (List.mem_filter.1 he).1)
        fun he => mem_sortErrors.1 (List.mem_filter.1 he).1
    -- Errors of the kind of `e` are at its path.
    have hkind : ∀ {a}, a ∈ errors ∨ a ∈ errors' → keep a → errorLE data e a → errorLE data a e →
        a.path = e.path := fun ha hka hea hae =>
      htext _ e ha he' hka hke (pathText_eq_of_errorLE hae hea)
    have hat : ∀ {es : List Error}, (∀ a ∈ es, a ∈ errors ∨ a ∈ errors') →
        es.filter (fun a => (errorLE data e a && errorLE data a e) && keep a) =
          (es.filter fun a => a.path = e.path).filter
            fun a => (errorLE data e a && errorLE data a e) && keep a := by
      intro es hes
      rw [List.filter_filter]
      refine List.filter_congr fun a ha => ?_
      cases hk : (errorLE data e a && errorLE data a e) && keep a with
      | false => rfl
      | true =>
        simp only [Bool.and_eq_true] at hk
        simp [hkind (hes a ha) hk.2 hk.1.1 hk.1.2]
    rw [List.filter_filter, List.filter_filter, sortErrors_eq, sortErrors_eq,
      filter_mergeSort (errorLE_trans data) (errorLE_total data),
      filter_mergeSort (errorLE_trans data') (errorLE_total data'),
      hat fun a ha => .inl ha, hat fun a ha => .inr ha, hpath e he' hke]
    · intro a ha b hb hpa hpb
      simp only [Bool.and_eq_true] at hpa hpb
      rw [hle ha hb hpa.2 hpb.2]
      exact errorLE_trans data _ _ _ hpa.1.2 hpb.1.1
    · intro a ha b hb hpa hpb
      simp only [Bool.and_eq_true] at hpa hpb
      exact errorLE_trans data _ _ _ hpa.1.2 hpb.1.1

end Execution

end GraphQL
