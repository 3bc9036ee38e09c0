import GraphQL.Entries
import Mathlib.Data.List.Forall2

/-!
More on maps from names: what lies in them, building them from distinct names, and maps of the same
names with related values (`Entries.Alike`).
-/

set_option autoImplicit false

namespace GraphQL

theorem eraseDups_snoc (names : List String) (n : String) :
    (names ++ [n]).eraseDups = if n ∈ names then names.eraseDups else names.eraseDups ++ [n] := by
  by_cases hn : n ∈ names <;>
    simp [List.eraseDups_append, List.removeAll, hn, List.eraseDups_cons]

namespace Entries

variable {α : Type}

theorem mem_of_get? {key : String} {m : Entries α} {a : α}
    (h : get? key m = some a) : (key, a) ∈ m := by
  induction m with
  | nil => cases h
  | cons e m ih =>
    obtain ⟨k, v⟩ := e
    rw [get?] at h
    split at h
    · next hk =>
      cases h
      exact hk ▸ List.mem_cons_self
    · exact List.mem_cons_of_mem _ (ih h)

theorem mem_keys_of_get? {m : Entries α} {key : String} {a : α} (h : get? key m = some a) :
    key ∈ keys m :=
  List.mem_map.2 ⟨_, mem_of_get? h, rfl⟩

theorem get?_of_mem {key : String} {m : Entries α} {a : α} (hm : (keys m).Nodup)
    (h : (key, a) ∈ m) : get? key m = some a := by
  induction m with
  | nil => cases h
  | cons e m ih =>
    obtain ⟨k, v⟩ := e
    obtain ⟨hk, hm⟩ := List.nodup_cons.1 hm
    rcases List.mem_cons.1 h with he | h
    · cases he
      exact if_pos rfl
    · rw [get?, if_neg, ih hm h]
      rintro rfl
      exact hk (List.mem_map.2 ⟨_, h, rfl⟩)

theorem mem_insert {key : String} {a : α} {m : Entries α} {e : String × α}
    (h : e ∈ insert key a m) : e = (key, a) ∨ e ∈ m := by
  induction m with
  | nil => exact .inl (by simpa [insert] using h)
  | cons e' m ih =>
    obtain ⟨k, v⟩ := e'
    rw [insert] at h
    split at h
    · next hk =>
      rcases List.mem_cons.1 h with rfl | h
      · exact .inl (by rw [hk])
      · exact .inr (List.mem_cons_of_mem _ h)
    · rcases List.mem_cons.1 h with rfl | h
      · exact .inr List.mem_cons_self
      · exact (ih h).imp id (List.mem_cons_of_mem _)

theorem mem_insertAll {m : Entries α} {new : List (String × α)} {e : String × α}
    (h : e ∈ insertAll m new) : e ∈ m ∨ e ∈ new := by
  induction new generalizing m with
  | nil => exact .inl h
  | cons e' new ih =>
    rcases ih h with hm | hn
    · exact (mem_insert hm).symm.imp id fun he => by rw [he]; exact List.mem_cons_self
    · exact .inr (List.mem_cons_of_mem _ hn)

theorem mem_modify {key : String} {f : α → α} {m : Entries α} {e : String × α}
    (h : e ∈ modify key f m) : e ∈ m ∨ ∃ a, (key, a) ∈ m ∧ e = (key, f a) := by
  induction m with
  | nil => exact .inl h
  | cons e' m ih =>
    obtain ⟨k, v⟩ := e'
    rw [modify] at h
    split at h
    · next hk =>
      subst hk
      rcases List.mem_cons.1 h with rfl | h
      · exact .inr ⟨v, List.mem_cons_self, rfl⟩
      · exact .inl (List.mem_cons_of_mem _ h)
    · rcases List.mem_cons.1 h with rfl | h
      · exact .inl List.mem_cons_self
      · rcases ih h with h | ⟨a, ha, he⟩
        · exact .inl (List.mem_cons_of_mem _ h)
        · exact .inr ⟨a, List.mem_cons_of_mem _ ha, he⟩

theorem insert_of_not_mem {key : String} {m : Entries α} (a : α) (h : key ∉ keys m) :
    insert key a m = m ++ [(key, a)] := by
  induction m with
  | nil => rfl
  | cons e m ih =>
    obtain ⟨k, v⟩ := e
    simp only [keys, List.map_cons, List.mem_cons, not_or] at h
    rw [insert, if_neg (Ne.symm h.1), ih h.2]
    rfl

theorem insert_insert (key : String) (a b : α) (m : Entries α) :
    insert key b (insert key a m) = insert key b m := by
  induction m with
  | nil => simp [insert]
  | cons e m ih =>
    obtain ⟨k, v⟩ := e
    by_cases hk : k = key
    · simp [insert, hk]
    · simp [insert, hk, ih]

theorem insertAll_of_nodup {m new : Entries α} (h : (keys (m ++ new)).Nodup) :
    insertAll m new = m ++ new := by
  induction new generalizing m with
  | nil => simp [insertAll]
  | cons e new ih =>
    have hm : e.1 ∉ keys m := by
      simp only [keys, List.map_append, List.map_cons, List.nodup_append] at h
      intro hmem
      exact h.2.2 _ hmem _ List.mem_cons_self rfl
    have hi : insert e.1 e.2 m = m ++ [e] := insert_of_not_mem e.2 hm
    have := ih (m := m ++ [e]) (by simpa using h)
    rw [List.append_assoc, List.singleton_append] at this
    rw [← this, ← hi]
    rfl

theorem ofList_of_nodup {m : Entries α} (h : (keys m).Nodup) : ofList m = m :=
  insertAll_of_nodup (m := []) h

theorem get?_eq_none_iff {key : String} {m : Entries α} : get? key m = none ↔ key ∉ keys m := by
  induction m with
  | nil => simp [get?, keys]
  | cons e m ih =>
    obtain ⟨k, v⟩ := e
    by_cases hk : k = key
    · simp [get?, keys, hk]
    · have hk' : ¬ key = k := fun h => hk h.symm
      simpa [get?, keys, hk, hk'] using ih

theorem insertAll_cons (m : Entries α) (key : String) (a : α) (new : Entries α) :
    insertAll m ((key, a) :: new) = insertAll (insert key a m) new := rfl

/-- Of the new entries with a name the last one counts, and the old one only if there is none. -/
theorem get?_insertAll_eq_some_iff {key : String} {a : α} {m new : Entries α} :
    get? key (insertAll m new) = some a ↔
      (∃ before after, new = before ++ (key, a) :: after ∧ key ∉ keys after) ∨
        key ∉ keys new ∧ get? key m = some a := by
  induction new generalizing m with
  | nil => simp [insertAll, keys]
  | cons e new ih =>
    obtain ⟨k, v⟩ := e
    rw [insertAll_cons, ih, get?_insert]
    constructor
    · rintro (⟨before, after, rfl, hlast⟩ | ⟨hnew, hget⟩)
      · exact .inl ⟨(k, v) :: before, after, rfl, hlast⟩
      · split at hget
        · next hk =>
          cases hget
          exact .inl ⟨[], new, by rw [hk]; rfl, hnew⟩
        · next hk => exact .inr ⟨by simpa [keys, hk] using hnew, hget⟩
    · rintro (⟨before, after, heq, hlast⟩ | ⟨hnew, hget⟩)
      · rcases List.cons_eq_append_iff.1 heq with ⟨rfl, hcons⟩ | ⟨before', rfl, hrest⟩
        · cases hcons
          exact .inr ⟨hlast, if_pos rfl⟩
        · exact .inl ⟨before', after, hrest, hlast⟩
      · have hk : ¬ key = k ∧ key ∉ keys new := by simpa [keys] using hnew
        exact .inr ⟨hk.2, by rw [if_neg hk.1, hget]⟩

theorem get?_ofList_eq_some_iff {key : String} {a : α} {entries : List (String × α)} :
    get? key (ofList entries) = some a ↔
      ∃ before after, entries = before ++ (key, a) :: after ∧ key ∉ keys after := by
  simp [ofList, get?_insertAll_eq_some_iff, get?]

/-- New names follow the old ones, each where it first appears. -/
theorem keys_insertAll (m new : Entries α) :
    keys (insertAll m new) = keys m ++ ((keys new).filter (· ∉ keys m)).eraseDups := by
  induction new generalizing m with
  | nil => simp [insertAll, keys]
  | cons e new ih =>
    obtain ⟨k, v⟩ := e
    have hkeys : keys ((k, v) :: new) = k :: keys new := rfl
    rw [insertAll_cons, ih, keys_insert, hkeys]
    by_cases hk : k ∈ keys m
    · rw [if_pos hk, List.filter_cons_of_neg (by simpa using hk)]
    · have hrest : (keys new).filter (· ∉ keys m ++ [k]) =
          ((keys new).filter (· ∉ keys m)).filter (fun name => !name == k) := by
        rw [List.filter_filter]
        congr 1
        funext name
        by_cases hname : name = k <;> simp [hname]
      rw [if_neg hk, List.filter_cons_of_pos (by simpa using hk), List.eraseDups_cons, hrest,
        List.append_assoc, List.singleton_append]

theorem mem_keys_insertAll {key : String} {m new : Entries α} :
    key ∈ keys (insertAll m new) ↔ key ∈ keys m ∨ key ∈ keys new := by
  by_cases hm : key ∈ keys m <;> simp [keys_insertAll, hm]

theorem keys_ofList (entries : List (String × α)) :
    keys (ofList entries) = (keys entries).eraseDups := by
  rw [ofList, keys_insertAll]
  simp [keys]

/-- The last of the new entries of a name counts. -/
theorem get?_insertAll (key : String) (m new : Entries α) :
    get? key (insertAll m new) =
      ((new.filter (·.1 = key)).getLast?.map Prod.snd).or (get? key m) := by
  induction new generalizing m with
  | nil => simp [insertAll]
  | cons e new ih =>
    obtain ⟨k, v⟩ := e
    rw [insertAll_cons, ih, get?_insert]
    by_cases hk : key = k
    · subst hk
      rw [if_pos rfl, List.filter_cons_of_pos (by simp), List.getLast?_cons]
      cases (new.filter (·.1 = key)).getLast? <;> rfl
    · rw [if_neg hk, List.filter_cons_of_neg (by simpa using Ne.symm hk)]

theorem get?_ofList (key : String) (entries : List (String × α)) :
    get? key (ofList entries) = (entries.filter (·.1 = key)).getLast?.map Prod.snd := by
  simp [ofList, get?_insertAll, get?]

/-- A map of distinct names is told by its names and what it has under each. -/
theorem map_some_eq {m : Entries α} (h : (keys m).Nodup) :
    m.map (fun e => some e.2) = (keys m).map (get? · m) := by
  rw [keys, List.map_map]
  exact List.map_congr_left fun e he => (get?_of_mem h he).symm

/-- Maps of distinct names are told by their names and what they have under each. -/
theorem ext {m m' : Entries α} (hm : (keys m).Nodup) (hkeys : keys m = keys m')
    (hget : ∀ key, get? key m = get? key m') : m = m' := by
  induction m generalizing m' with
  | nil =>
    cases m' with
    | nil => rfl
    | cons e m' => cases hkeys
  | cons e m ih =>
    cases m' with
    | nil => cases hkeys
    | cons e' m' =>
      obtain ⟨k, v⟩ := e
      obtain ⟨k', v'⟩ := e'
      obtain ⟨rfl, hrest⟩ := List.cons.inj hkeys
      obtain ⟨hk, hm⟩ := List.nodup_cons.1 hm
      have hv : v = v' := by simpa [get?] using hget k
      rw [hv, ih hm hrest]
      intro key
      by_cases hkey : k = key
      · subst hkey
        have hk' : k ∉ keys m' := by rwa [keys, ← hrest]
        rw [get?_eq_none_iff.2 hk, get?_eq_none_iff.2 hk']
      · simpa [get?, hkey] using hget key

theorem keys_zip {ks : List String} {as : List α} (h : ks.length = as.length) :
    keys (ks.zip as) = ks :=
  List.map_fst_zip (Nat.le_of_eq h)

variable {β : Type}

theorem get?_map (f : α → β) (key : String) (m : Entries α) :
    get? key (m.map fun e => (e.1, f e.2)) = (get? key m).map f := by
  induction m with
  | nil => rfl
  | cons e m ih =>
    obtain ⟨k, a⟩ := e
    rw [List.map_cons, get?, get?]
    split
    · rfl
    · exact ih

theorem keys_map (f : α → β) (m : Entries α) : keys (m.map fun e => (e.1, f e.2)) = keys m := by
  simp [keys]

/-- Maps that come to the same under `g` are the same if `g` tells their values apart. -/
theorem ext_map {g : α → β} {m m' : Entries α} (hm : (keys m).Nodup)
    (h : m.map (Prod.map id g) = m'.map (Prod.map id g))
    (hg : ∀ key a a', get? key m = some a → get? key m' = some a' → g a = g a' → a = a') :
    m = m' := by
  refine ext hm ?_ fun key => ?_
  · rw [← keys_map g m, ← keys_map g m']
    exact congrArg keys h
  · have hget : (get? key m).map g = (get? key m').map g := by
      rw [← get?_map g key m, ← get?_map g key m']
      exact congrArg (get? key) h
    cases ha : get? key m with
    | none =>
      rw [ha, Option.map_none, eq_comm, Option.map_eq_none_iff] at hget
      rw [hget]
    | some a =>
      rw [ha, Option.map_some, eq_comm, Option.map_eq_some_iff] at hget
      obtain ⟨a', ha', heq⟩ := hget
      rw [ha', hg key a a' ha ha' heq.symm]

/-- The same names in the same order, with related values. -/
def Alike (P : α → β → Prop) (m : Entries α) (m' : Entries β) : Prop :=
  List.Forall₂ (fun e e' => e.1 = e'.1 ∧ P e.2 e'.2) m m'

namespace Alike

variable {P : α → β → Prop} {m : Entries α} {m' : Entries β}

theorem imp {Q : α → β → Prop} (h : Alike P m m') (hQ : ∀ a b, P a b → Q a b) : Alike Q m m' :=
  List.Forall₂.imp (fun _ _ he => ⟨he.1, hQ _ _ he.2⟩) h

theorem length_eq (h : Alike P m m') : m.length = m'.length := List.Forall₂.length_eq h

theorem keys_eq (h : Alike P m m') : keys m = keys m' := by
  induction h with
  | nil => rfl
  | cons he _ ih => exact congrArg₂ List.cons he.1 ih

theorem of_getElem? (h : Alike P m m') {i : Nat} {e : String × α} {e' : String × β}
    (hi : m[i]? = some e) (hi' : m'[i]? = some e') : e.1 = e'.1 ∧ P e.2 e'.2 := by
  induction h generalizing i with
  | nil => simp at hi
  | cons he _ ih =>
    cases i with
    | zero =>
      cases hi
      cases hi'
      exact he
    | succ i => exact ih (by simpa using hi) (by simpa using hi')

theorem get? (h : Alike P m m') (key : String) :
    Option.Rel P (Entries.get? key m) (Entries.get? key m') := by
  induction h with
  | nil => exact .none
  | @cons e e' m m' he _ ih =>
    obtain ⟨k, a⟩ := e
    obtain ⟨k', a'⟩ := e'
    obtain ⟨rfl, ha⟩ := he
    rw [Entries.get?, Entries.get?]
    split
    · exact .some ha
    · exact ih

theorem iff_get? (hm : (keys m).Nodup) : Alike P m m' ↔ keys m = keys m' ∧
    ∀ key a b, Entries.get? key m = some a → Entries.get? key m' = some b → P a b := by
  constructor
  · intro h
    refine ⟨h.keys_eq, fun key a b ha hb => ?_⟩
    have hget := h.get? key
    rw [ha, hb] at hget
    exact Option.rel_some_some.1 hget
  · rintro ⟨hkeys, h⟩
    induction m generalizing m' with
    | nil =>
      cases m' with
      | nil => exact .nil
      | cons e' m' => cases hkeys
    | cons e m ih =>
      cases m' with
      | nil => cases hkeys
      | cons e' m' =>
        obtain ⟨k, a⟩ := e
        obtain ⟨k', b⟩ := e'
        obtain ⟨rfl, hrest⟩ := List.cons.inj hkeys
        obtain ⟨hk, hm⟩ := List.nodup_cons.1 hm
        refine .cons ⟨rfl, h k a b (if_pos rfl) (if_pos rfl)⟩ (ih hm hrest ?_)
        intro key a' b' ha' hb'
        have hne : k ≠ key := fun heq => hk (heq ▸ mem_keys_of_get? ha')
        exact h key a' b' ((if_neg hne).trans ha') ((if_neg hne).trans hb')

theorem getD_get? (h : Alike P m m') (key : String) {a : α} {a' : β} (ha : P a a') :
    P ((Entries.get? key m).getD a) ((Entries.get? key m').getD a') := by
  have hget := h.get? key
  generalize Entries.get? key m = found at hget
  generalize Entries.get? key m' = found' at hget
  cases hget with
  | none => exact ha
  | some hP => exact hP

theorem exists_of_forall (h : ∀ a, ∃ b, P a b) : ∃ m', Alike P m m' := by
  induction m with
  | nil => exact ⟨[], .nil⟩
  | cons e m ih =>
    obtain ⟨b, hb⟩ := h e.2
    obtain ⟨m', hm⟩ := ih
    exact ⟨(e.1, b) :: m', .cons ⟨rfl, hb⟩ hm⟩

theorem unique (hP : ∀ {a b b'}, P a b → P a b' → b = b') (h : Alike P m m') {m'' : Entries β}
    (h' : Alike P m m'') : m' = m'' := by
  induction h generalizing m'' with
  | nil =>
    cases h'
    rfl
  | cons he _ ih =>
    cases h' with
    | cons he' hm' => rw [ih hm', Prod.ext (he.1.symm.trans he'.1) (hP he.2 he'.2)]

theorem insert (h : Alike P m m') (key : String) {a : α} {a' : β} (ha : P a a') :
    Alike P (Entries.insert key a m) (Entries.insert key a' m') := by
  induction h with
  | nil => exact .cons ⟨rfl, ha⟩ .nil
  | @cons e e' m m' he hm ih =>
    obtain ⟨k, b⟩ := e
    obtain ⟨k', b'⟩ := e'
    obtain ⟨rfl, hb⟩ := he
    rw [Entries.insert, Entries.insert]
    split
    · exact .cons ⟨rfl, ha⟩ hm
    · exact .cons ⟨rfl, hb⟩ ih

theorem insert_right (h : Alike P m m') {key : String} {b b' : β}
    (hget : Entries.get? key m' = some b) (hb : ∀ a, P a b → P a b') :
    Alike P m (Entries.insert key b' m') := by
  induction h with
  | nil => cases hget
  | @cons e e' m m' he hm ih =>
    obtain ⟨k', v⟩ := e'
    rw [Entries.get?] at hget
    rw [Entries.insert]
    split
    · next hk =>
      rw [if_pos hk] at hget
      cases hget
      exact .cons ⟨he.1, hb _ he.2⟩ hm
    · next hk =>
      rw [if_neg hk] at hget
      exact .cons he (ih hget)

end Alike

end Entries

theorem nodup_eraseDups (names : List String) : names.eraseDups.Nodup := by
  have h := Entries.nodup_keys_ofList (names.map fun n => (n, ()))
  rwa [Entries.keys_ofList, Entries.keys, List.map_map, show Prod.fst ∘ (·, ()) = id from rfl,
    List.map_id] at h

end GraphQL
