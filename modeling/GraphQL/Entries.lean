/-!
Insertion-ordered maps from names, as lists of entries.

A name that is inserted again keeps its first position and takes the new value.
-/

set_option autoImplicit false

namespace GraphQL

/-- An ordered map from names; `Entries.insert` keeps the names distinct. -/
abbrev Entries (α : Type) := List (String × α)

namespace Entries

variable {α β : Type}

def keys (m : Entries α) : List String := m.map Prod.fst

def get? (key : String) : Entries α → Option α
  | [] => none
  | (k, v) :: m => if k = key then some v else get? key m

def contains (key : String) (m : Entries α) : Bool := (get? key m).isSome

def insert (key : String) (value : α) : Entries α → Entries α
  | [] => [(key, value)]
  | (k, v) :: m => if k = key then (k, value) :: m else (k, v) :: insert key value m

/-- Changes the value under a name that is present. -/
def modify (key : String) (f : α → α) : Entries α → Entries α
  | [] => []
  | (k, v) :: m => if k = key then (k, f v) :: m else (k, v) :: modify key f m

def insertAll (m : Entries α) (new : List (String × α)) : Entries α :=
  new.foldl (fun m e => insert e.1 e.2 m) m

def ofList (entries : List (String × α)) : Entries α := insertAll [] entries

theorem get?_insert (key other : String) (value : α) (m : Entries α) :
    get? other (insert key value m) = if other = key then some value else get? other m := by
  induction m with
  | nil => simp [insert, get?, eq_comm]
  | cons e m ih =>
    obtain ⟨k, v⟩ := e
    by_cases hk : k = key
    · subst hk; by_cases ho : other = k
      · simp [insert, get?, ho]
      · simp [insert, get?, ho, Ne.symm ho]
    · by_cases ho : k = other
      · subst ho; simp [insert, get?, hk]
      · simp [insert, get?, hk, ho, ih]

theorem keys_insert (key : String) (value : α) (m : Entries α) :
    keys (insert key value m) = if key ∈ keys m then keys m else keys m ++ [key] := by
  induction m with
  | nil => simp [insert, keys]
  | cons e m ih =>
    obtain ⟨k, v⟩ := e
    by_cases hk : k = key
    · simp [insert, keys, hk]
    · have hk' : ¬ key = k := fun h => hk h.symm
      simp only [keys] at ih
      simp only [insert, hk, if_false, keys, List.map_cons, ih, List.mem_cons, hk', false_or]
      split <;> simp [*]

theorem nodup_keys_insert (key : String) (value : α) {m : Entries α} (h : (keys m).Nodup) :
    (keys (insert key value m)).Nodup := by
  rw [keys_insert]
  split
  · exact h
  · next hk =>
    rw [List.nodup_append]
    exact ⟨h, by simp, by rintro a ha b hb rfl; simp at hb; exact hk (hb ▸ ha)⟩

theorem nodup_keys_insertAll {m : Entries α} (h : (keys m).Nodup) (new : List (String × α)) :
    (keys (insertAll m new)).Nodup := by
  induction new generalizing m with
  | nil => exact h
  | cons e new ih => exact ih (nodup_keys_insert e.1 e.2 h)

theorem nodup_keys_ofList (entries : List (String × α)) : (keys (ofList entries)).Nodup :=
  nodup_keys_insertAll (by simp [keys]) entries

theorem keys_modify (key : String) (f : α → α) (m : Entries α) :
    keys (modify key f m) = keys m := by
  induction m with
  | nil => rfl
  | cons e m ih =>
    obtain ⟨k, v⟩ := e
    simp only [keys] at ih
    by_cases hk : k = key <;> simp [modify, keys, hk, ih]

theorem get?_modify (key other : String) (f : α → α) (m : Entries α) :
    get? other (modify key f m) =
      if other = key then (get? other m).map f else get? other m := by
  induction m with
  | nil => simp [modify, get?]
  | cons e m ih =>
    obtain ⟨k, v⟩ := e
    by_cases hk : k = key
    · subst hk; by_cases ho : other = k
      · simp [modify, get?, ho]
      · simp [modify, get?, ho, Ne.symm ho]
    · by_cases ho : k = other
      · subst ho; simp [modify, get?, hk]
      · simp [modify, get?, hk, ho, ih]

end Entries

end GraphQL
