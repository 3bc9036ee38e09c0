import GraphQL.Proofs.Execution.Data
import GraphQL.Proofs.Json.Trees

/-!
The two equalities of JSON values.

Where the keys of two objects are distinct and in the same order, looking up the members of one in
the other comes to comparing them one after the other (`Value.equalMembers_iff_alike`). So the
equality that compares the order of members is the other one together with the same order of keys
wherever both values have an object (`Value.equalOrdered_iff`).
-/

set_option autoImplicit false

namespace GraphQL

namespace Json

namespace Number

theorem equal_refl (n : Number) : n.equal n = true := by
  cases n with
  | int i => exact beq_self_eq_true i
  | double x => exact x.equal_refl

theorem equal_comm (m n : Number) : m.equal n = n.equal m := by
  cases m <;> cases n
  · exact Bool.beq_comm
  · rfl
  · rfl
  · exact Binary64.equal_comm _ _

theorem equal_trans : ∀ {l m n : Number}, l.equal m = true → m.equal n = true → l.equal n = true
  | int _, int _, int _, h, h' => beq_iff_eq.2 ((beq_iff_eq.1 h).trans (beq_iff_eq.1 h'))
  | double _, double _, double _, h, h' => Binary64.equal_trans h h'

end Number

namespace Value

/-- What holds of leaves, and of arrays and objects if it holds of their parts, holds of all
values. -/
@[elab_as_elim]
theorem inductionOn {motive : Value → Prop} (v : Value) (null : motive .null)
    (bool : ∀ b, motive (.bool b)) (number : ∀ n, motive (.number n))
    (string : ∀ s, motive (.string s))
    (array : ∀ items, (∀ item ∈ items, motive item) → motive (.array items))
    (object : ∀ members, (∀ e ∈ members, motive e.2) → motive (.object members)) : motive v := by
  refine @Value.rec motive (fun items => ∀ item ∈ items, motive item)
    (fun members => ∀ e ∈ members, motive e.2) (fun e => motive e.2) null bool number string array
    object ?_ ?_ ?_ ?_ (fun _ _ h => h) v
  · exact List.forall_mem_nil _
  · exact fun _ _ hitem hitems => List.forall_mem_cons.2 ⟨hitem, hitems⟩
  · exact List.forall_mem_nil _
  · exact fun _ _ he hmembers => List.forall_mem_cons.2 ⟨he, hmembers⟩

theorem Distinct.item {items : List Value} {item : Value} (h : DistinctItems items)
    (hitem : item ∈ items) : item.Distinct := by
  induction items with
  | nil => cases hitem
  | cons v vs ih =>
    rcases List.mem_cons.1 hitem with rfl | hitem
    · exact h.1
    · exact ih h.2 hitem

theorem Distinct.member {members : Entries Value} {e : String × Value}
    (h : DistinctMembers members) (he : e ∈ members) : e.2.Distinct := by
  induction members with
  | nil => cases he
  | cons e' members ih =>
    rcases List.mem_cons.1 he with rfl | he
    · exact h.1
    · exact ih h.2 he

/-! The equalities of lists and members as relations between their parts. -/

theorem equalItems_iff {xs ys : List Value} :
    equalItems xs ys = true ↔ List.Forall₂ (fun x y => x.equal y = true) xs ys := by
  induction xs generalizing ys with
  | nil => cases ys <;> simp [equalItems]
  | cons x xs ih => cases ys <;> simp [equalItems, ih]

theorem equalOrdered_array_iff {xs ys : List Value} : (array xs).equalOrdered (array ys) = true ↔
    List.Forall₂ (fun x y => x.equalOrdered y = true) xs ys := by
  rw [equalOrdered, Bool.and_eq_true, beq_iff_eq]
  induction xs generalizing ys with
  | nil => cases ys <;> simp [equalOrderedItems]
  | cons x xs ih =>
    cases ys with
    | nil => simp
    | cons y ys => simp [equalOrderedItems, ← ih, and_left_comm]

theorem equalOrdered_object_iff {xs ys : Entries Value} :
    (object xs).equalOrdered (object ys) = true ↔
      Entries.Alike (fun x y => x.equalOrdered y = true) xs ys := by
  rw [equalOrdered, Bool.and_eq_true, beq_iff_eq, Entries.Alike]
  induction xs generalizing ys with
  | nil => cases ys <;> simp [equalOrderedMembers]
  | cons x xs ih =>
    cases ys with
    | nil => simp
    | cons y ys => simp [equalOrderedMembers, ← ih, and_assoc, and_left_comm]

theorem equalMembers_iff {xs ys : Entries Value} : equalMembers xs ys = true ↔
    ∀ e ∈ xs, ∃ y, Entries.get? e.1 ys = some y ∧ e.2.equal y = true := by
  induction xs with
  | nil => simp [equalMembers]
  | cons e xs ih =>
    rw [equalMembers, Bool.and_eq_true, ih, List.forall_mem_cons]
    cases Entries.get? e.1 ys <;> simp

section

variable {α β : Type} {R : α → β → Prop} {S : α → α → Prop} {xs : List α}

theorem forall₂_iff_getElem? {ys : List β} : List.Forall₂ R xs ys ↔ xs.length = ys.length ∧
    ∀ (i : Nat) (x : α) (y : β), xs[i]? = some x → ys[i]? = some y → R x y := by
  rw [List.forall₂_iff_get]
  refine and_congr_right fun hlength => ⟨fun h i x y hx hy => ?_, fun h i hi hi' => ?_⟩
  · obtain ⟨hi, rfl⟩ := List.getElem?_eq_some_iff.1 hx
    obtain ⟨hi', rfl⟩ := List.getElem?_eq_some_iff.1 hy
    exact h i hi hi'
  · exact h i _ _ (List.getElem?_eq_getElem hi) (List.getElem?_eq_getElem hi')

theorem forall₂_symm {ys : List α} (hS : ∀ x ∈ xs, ∀ y, S x y → S y x)
    (h : List.Forall₂ S xs ys) : List.Forall₂ S ys xs := by
  induction h with
  | nil => exact .nil
  | cons hxy _ ih =>
    obtain ⟨hx, hxs⟩ := List.forall_mem_cons.1 hS
    exact .cons (hx _ hxy) (ih hxs)

theorem forall₂_trans {ys zs : List α} (hS : ∀ x ∈ xs, ∀ y z, S x y → S y z → S x z)
    (h : List.Forall₂ S xs ys) (h' : List.Forall₂ S ys zs) : List.Forall₂ S xs zs := by
  induction h generalizing zs with
  | nil => exact h'
  | cons hxy _ ih =>
    obtain ⟨hx, hxs⟩ := List.forall_mem_cons.1 hS
    cases h' with
    | cons hyz h' => exact .cons (hx _ _ hxy hyz) (ih hxs h')

end

/-- Where the keys are the same, looking members up comes to comparing those of one key. -/
theorem equalMembers_iff_get? {xs ys : Entries Value} (hkeys : Entries.keys xs = Entries.keys ys)
    (hnodup : (Entries.keys xs).Nodup) :
    equalMembers xs ys = true ↔ ∀ (key : String) (x y : Value),
      Entries.get? key xs = some x → Entries.get? key ys = some y → x.equal y = true := by
  rw [equalMembers_iff]
  constructor
  · intro h key x y hx hy
    obtain ⟨y', hy', hequal⟩ := h _ (Entries.mem_of_get? hx)
    rw [hy] at hy'
    exact Option.some.inj hy' ▸ hequal
  · intro h e he
    have hx := Entries.get?_of_mem hnodup he
    have hkey : e.1 ∈ Entries.keys ys := hkeys ▸ Entries.mem_keys_of_get? hx
    obtain ⟨y, hy⟩ := Option.ne_none_iff_exists'.1 (mt Entries.get?_eq_none_iff.1 (not_not.2 hkey))
    exact ⟨y, hy, h _ _ _ hx hy⟩

/-- Wherever both values have an object, its keys come in the same order. -/
def SameOrder (a b : Value) : Prop :=
  ∀ (path : Path) (xs ys : Entries Value), a.follow? path = some (object xs) →
    b.follow? path = some (object ys) → Entries.keys xs = Entries.keys ys

namespace SameOrder

theorem array_iff {xs ys : List Value} : (array xs).SameOrder (array ys) ↔
    ∀ (i : Nat) (x y : Value), xs[i]? = some x → ys[i]? = some y → x.SameOrder y := by
  constructor
  · intro h i x y hx hy path us vs hu hv
    refine h (.index i :: path) us vs ?_ ?_
    · rw [follow?, hx, Option.bind_some, hu]
    · rw [follow?, hy, Option.bind_some, hv]
  · intro h path us vs hu hv
    cases path with
    | nil => cases hu
    | cons element path =>
      cases element with
      | key k => cases hu
      | index i =>
        obtain ⟨x, hx, hu⟩ := Option.bind_eq_some_iff.1 hu
        obtain ⟨y, hy, hv⟩ := Option.bind_eq_some_iff.1 hv
        exact h i x y hx hy path us vs hu hv

theorem object_iff {xs ys : Entries Value} : (object xs).SameOrder (object ys) ↔
    Entries.keys xs = Entries.keys ys ∧ ∀ (key : String) (x y : Value),
      Entries.get? key xs = some x → Entries.get? key ys = some y → x.SameOrder y := by
  constructor
  · intro h
    refine ⟨h [] xs ys rfl rfl, fun key x y hx hy path us vs hu hv => ?_⟩
    refine h (.key key :: path) us vs ?_ ?_
    · rw [follow?, hx, Option.bind_some, hu]
    · rw [follow?, hy, Option.bind_some, hv]
  · rintro ⟨hkeys, h⟩ path us vs hu hv
    cases path with
    | nil =>
      cases hu
      cases hv
      exact hkeys
    | cons element path =>
      cases element with
      | index i => cases hu
      | key k =>
        obtain ⟨x, hx, hu⟩ := Option.bind_eq_some_iff.1 hu
        obtain ⟨y, hy, hv⟩ := Option.bind_eq_some_iff.1 hv
        exact h k x y hx hy path us vs hu hv

end SameOrder

/-- A value without objects has the order of every other. -/
theorem leaf_iff {a b : Value} (hequal : a.equalOrdered b = a.equal b)
    (hleaf : ∀ path xs, a.follow? path ≠ some (object xs)) :
    a.equalOrdered b = true ↔ a.equal b = true ∧ a.SameOrder b := by
  rw [hequal]
  exact (and_iff_left fun path xs _ hxs => absurd hxs (hleaf path xs)).symm

/-- If ordered equality of the parts at each place is equality and the same order of keys, then so
it is of all parts. -/
theorem parts_iff {ι : Type} {xs ys : ι → Option Value}
    (h : ∀ i x y, xs i = some x → ys i = some y →
      (x.equalOrdered y = true ↔ x.equal y = true ∧ x.SameOrder y)) :
    (∀ i x y, xs i = some x → ys i = some y → x.equalOrdered y = true) ↔
      (∀ i x y, xs i = some x → ys i = some y → x.equal y = true) ∧
        ∀ i x y, xs i = some x → ys i = some y → x.SameOrder y := by
  constructor
  · intro hordered
    have hboth i x y (hx : xs i = some x) (hy : ys i = some y) :=
      (h i x y hx hy).1 (hordered i x y hx hy)
    exact ⟨fun i x y hx hy => (hboth i x y hx hy).1, fun i x y hx hy => (hboth i x y hx hy).2⟩
  · rintro ⟨hequal, horder⟩ i x y hx hy
    exact (h i x y hx hy).2 ⟨hequal i x y hx hy, horder i x y hx hy⟩

/-- The equality that compares the order of members is the other one, with the same order of keys
everywhere. -/
theorem equalOrdered_iff {a b : Value} (ha : a.Distinct) (hb : b.Distinct) :
    a.equalOrdered b = true ↔ a.equal b = true ∧ a.SameOrder b := by
  induction a using inductionOn generalizing b with
  | null | bool | number | string =>
    exact leaf_iff (by cases b <;> rfl) (by rintro (_ | ⟨_ | _, _⟩) xs h <;> cases h)
  | array xs ih =>
    cases b with
    | array ys =>
      have hparts : ∀ (i : Nat) (x y : Value), xs[i]? = some x → ys[i]? = some y →
          (x.equalOrdered y = true ↔ x.equal y = true ∧ x.SameOrder y) := fun i x y hx hy =>
        ih x (List.mem_of_getElem? hx) (.item ha (List.mem_of_getElem? hx))
          (.item hb (List.mem_of_getElem? hy))
      rw [equalOrdered_array_iff, equal, equalItems_iff, forall₂_iff_getElem?,
        forall₂_iff_getElem?, SameOrder.array_iff, and_assoc, parts_iff hparts]
    | null | bool | number | string | object => simp [equalOrdered, equal]
  | object xs ih =>
    cases b with
    | object ys =>
      have hparts : ∀ (key : String) (x y : Value),
          Entries.get? key xs = some x → Entries.get? key ys = some y →
          (x.equalOrdered y = true ↔ x.equal y = true ∧ x.SameOrder y) := fun key x y hx hy =>
        ih _ (Entries.mem_of_get? hx) (.member ha.2 (Entries.mem_of_get? hx))
          (.member hb.2 (Entries.mem_of_get? hy))
      rw [equalOrdered_object_iff, equal, Entries.Alike.iff_get? ha.1, parts_iff hparts,
        SameOrder.object_iff, Bool.and_eq_true, beq_iff_eq]
      constructor
      · rintro ⟨hkeys, hequal, horder⟩
        have hlength : xs.length = ys.length := by
          simpa [Entries.keys] using congrArg List.length hkeys
        exact ⟨⟨hlength, (equalMembers_iff_get? hkeys ha.1).2 hequal⟩, hkeys, horder⟩
      · rintro ⟨⟨-, hequal⟩, hkeys, horder⟩
        exact ⟨hkeys, (equalMembers_iff_get? hkeys ha.1).1 hequal, horder⟩
    | null | bool | number | string | array => simp [equalOrdered, equal]

theorem equalOrdered_refl (a : Value) : a.equalOrdered a = true := by
  induction a using inductionOn with
  | null => rfl
  | bool b => exact beq_self_eq_true b
  | number n => exact n.equal_refl
  | string s => exact beq_self_eq_true s
  | array xs ih =>
    rw [equalOrdered_array_iff]
    exact List.forall₂_same.2 ih
  | object xs ih =>
    rw [equalOrdered_object_iff]
    exact List.forall₂_same.2 fun e he => ⟨rfl, ih e he⟩

theorem equalOrdered_symm {a b : Value} (h : a.equalOrdered b = true) :
    b.equalOrdered a = true := by
  induction a using inductionOn generalizing b with
  | null =>
    cases b with
    | null => rfl
    | bool | number | string | array | object => cases h
  | bool =>
    cases b with
    | bool => exact beq_iff_eq.2 (beq_iff_eq.1 h).symm
    | null | number | string | array | object => cases h
  | number n =>
    cases b with
    | number m => exact (m.equal_comm n).trans h
    | null | bool | string | array | object => cases h
  | string =>
    cases b with
    | string => exact beq_iff_eq.2 (beq_iff_eq.1 h).symm
    | null | bool | number | array | object => cases h
  | array xs ih =>
    cases b with
    | array ys =>
      rw [equalOrdered_array_iff] at h ⊢
      exact forall₂_symm (fun x hx y hxy => ih x hx hxy) h
    | null | bool | number | string | object => cases h
  | object xs ih =>
    cases b with
    | object ys =>
      rw [equalOrdered_object_iff] at h ⊢
      exact forall₂_symm (fun e he e' hee' => ⟨hee'.1.symm, ih e he hee'.2⟩) h
    | null | bool | number | string | array => cases h

theorem equalOrdered_trans {a b c : Value} (h : a.equalOrdered b = true)
    (h' : b.equalOrdered c = true) : a.equalOrdered c = true := by
  induction a using inductionOn generalizing b c with
  | null =>
    cases b with
    | null => exact h'
    | bool | number | string | array | object => cases h
  | bool =>
    cases b with
    | bool => exact beq_iff_eq.1 h ▸ h'
    | null | number | string | array | object => cases h
  | number =>
    cases b with
    | number =>
      cases c with
      | number => exact Number.equal_trans h h'
      | null | bool | string | array | object => cases h'
    | null | bool | string | array | object => cases h
  | string =>
    cases b with
    | string => exact beq_iff_eq.1 h ▸ h'
    | null | bool | number | array | object => cases h
  | array xs ih =>
    cases b with
    | array ys =>
      cases c with
      | array zs =>
        rw [equalOrdered_array_iff] at h h' ⊢
        exact forall₂_trans (fun x hx y z hxy hyz => ih x hx hxy hyz) h h'
      | null | bool | number | string | object => cases h'
    | null | bool | number | string | object => cases h
  | object xs ih =>
    cases b with
    | object ys =>
      cases c with
      | object zs =>
        rw [equalOrdered_object_iff] at h h' ⊢
        exact forall₂_trans
          (fun e he e' e'' hee' he' => ⟨hee'.1.trans he'.1, ih e he hee'.2 he'.2⟩) h h'
      | null | bool | number | string | array => cases h'
    | null | bool | number | string | array => cases h

/-- Equality with the order of members is equality with the same order of keys at every pair of
objects at the same place, and an equivalence. -/
theorem equalOrdered_refines (a b c : Value) :
    (a.Distinct → b.Distinct →
      (a.equalOrdered b = true ↔ a.equal b = true ∧
        ∀ (path : Path) (xs ys : Entries Value), a.follow? path = some (object xs) →
          b.follow? path = some (object ys) → Entries.keys xs = Entries.keys ys)) ∧
    a.equalOrdered a = true ∧ (a.equalOrdered b = true → b.equalOrdered a = true) ∧
    (a.equalOrdered b = true → b.equalOrdered c = true → a.equalOrdered c = true) :=
  ⟨equalOrdered_iff, equalOrdered_refl a, equalOrdered_symm, equalOrdered_trans⟩

/-- An object in an array in an object. -/
def nested (first second : String × Value) : Value :=
  .object [("list", .array [.null, .object [first, second]])]

theorem nested_distinct {first second : String × Value} (hkeys : first.1 ≠ second.1)
    (hfirst : first.2.Distinct) (hsecond : second.2.Distinct) :
    (nested first second).Distinct := by
  simp [nested, Distinct, DistinctMembers, DistinctItems, Entries.keys, hkeys, hfirst, hsecond]

theorem equalOrdered_refines_nested :
    let positive := nested ("a", .number (.double ⟨0⟩)) ("b", .null)
    let negative := nested ("a", .number (.double ⟨0x8000000000000000⟩)) ("b", .null)
    let swapped := nested ("b", .null) ("a", .number (.double ⟨0⟩))
    positive.Distinct ∧ negative.Distinct ∧ swapped.Distinct ∧
      positive.equalOrdered negative = true ∧ negative.equalOrdered positive = true ∧
      positive.equalOrdered positive = true ∧
      positive.equal swapped = true ∧ ¬ positive.equalOrdered swapped = true := by
  intro positive negative swapped
  have hpositive : positive.Distinct := nested_distinct (by decide) trivial trivial
  have hnegative : negative.Distinct := nested_distinct (by decide) trivial trivial
  have hswapped : swapped.Distinct := nested_distinct (by decide) trivial trivial
  have hzeros : positive.equalOrdered negative = true := by decide +kernel
  obtain ⟨-, hrefl, hsymm, htrans⟩ := equalOrdered_refines positive negative positive
  refine ⟨hpositive, hnegative, hswapped, hzeros, hsymm hzeros, htrans hzeros (hsymm hzeros),
    by decide +kernel, fun h => ?_⟩
  have horder := (((equalOrdered_refines positive swapped swapped).1 hpositive hswapped).1 h).2
  have hkeys := horder [.key "list", .index 1] _ _ rfl rfl
  exact absurd hkeys (by decide)

end Value

end Json

end GraphQL
