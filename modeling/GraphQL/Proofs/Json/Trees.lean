import GraphQL.Coercion.Input
import GraphQL.Json.Record
import GraphQL.Proofs.Entries

/-!
The trees that JSON values are read as.

A value is got back from its tree (`Tree.toValue_ofValue`), and a record from the tree of an object
whose keys it knows (`Tree.record?_ofValue`).
-/

set_option autoImplicit false

namespace GraphQL.Json

deriving instance DecidableEq for Token

namespace Value

mutual

/-- No object in the value has a key twice. -/
def Distinct : Value → Prop
  | array items => DistinctItems items
  | object members => (Entries.keys members).Nodup ∧ DistinctMembers members
  | _ => True

def DistinctItems : List Value → Prop
  | [] => True
  | v :: vs => v.Distinct ∧ DistinctItems vs

def DistinctMembers : List (String × Value) → Prop
  | [] => True
  | (_, v) :: vs => v.Distinct ∧ DistinctMembers vs

end

theorem depth_le_depthItems {items : List Value} {item : Value} (h : item ∈ items) :
    item.depth ≤ depthItems items := by
  induction items with
  | nil => cases h
  | cons v items ih =>
    rw [depthItems]
    rcases List.mem_cons.1 h with rfl | h
    · omega
    · have := ih h
      omega

theorem depth_le_depthMembers {members : Entries Value} {e : String × Value} (h : e ∈ members) :
    e.2.depth ≤ depthMembers members := by
  induction members with
  | nil => cases h
  | cons e' members ih =>
    obtain ⟨k, v⟩ := e'
    rw [depthMembers]
    rcases List.mem_cons.1 h with rfl | h
    · show v.depth ≤ _
      omega
    · have := ih h
      omega

end Value

namespace Tree

mutual

/-- What the text of a value is read as. -/
def ofValue : Value → Tree
  | .null => null
  | .bool b => bool b
  | .number n => number (some n)
  | .string s => string (some s)
  | .array items => array (ofItems items)
  | .object members => object (ofMembers members)

def ofItems : List Value → List Tree
  | [] => []
  | v :: vs => ofValue v :: ofItems vs

def ofMembers : List (String × Value) → List (Option String × Tree)
  | [] => []
  | (k, v) :: vs => (some k, ofValue v) :: ofMembers vs

end

theorem ofItems_eq_map (items : List Value) : ofItems items = items.map ofValue := by
  induction items with
  | nil => rfl
  | cons v vs ih => rw [ofItems, ih, List.map_cons]

mutual

theorem toValue_ofValue : ∀ {v : Value} {limit : Nat}, v.Distinct → v.depth ≤ limit →
    (ofValue v).toValue limit = some v
  | .null, _, _, _ => by rw [ofValue, toValue]
  | .bool _, _, _, _ => by rw [ofValue, toValue]
  | .number _, _, _, _ => by rw [ofValue, toValue, Option.map_some]
  | .string _, _, _, _ => by rw [ofValue, toValue, Option.map_some]
  | .array items, limit, hv, hd => by
    rw [Value.depth] at hd
    cases limit with
    | zero => omega
    | succ limit =>
      rw [ofValue, toValue, toItems_ofItems hv (by omega), Option.map_some]
  | .object members, limit, hv, hd => by
    rw [Value.depth] at hd
    cases limit with
    | zero => omega
    | succ limit =>
      rw [ofValue, toValue, toMembers_ofMembers hv.2 (by omega), Option.map_some,
        Entries.ofList_of_nodup hv.1]

theorem toItems_ofItems : ∀ {items : List Value} {limit : Nat}, Value.DistinctItems items →
    Value.depthItems items ≤ limit → toItems limit (ofItems items) = some items
  | [], _, _, _ => by rw [ofItems, toItems]
  | v :: vs, limit, hv, hd => by
    rw [Value.depthItems] at hd
    rw [ofItems, toItems, toValue_ofValue hv.1 (by omega), toItems_ofItems hv.2 (by omega)]
    rfl

theorem toMembers_ofMembers : ∀ {members : List (String × Value)} {limit : Nat},
    Value.DistinctMembers members → Value.depthMembers members ≤ limit →
    toMembers limit (ofMembers members) = some members
  | [], _, _, _ => by rw [ofMembers, toMembers]
  | (k, v) :: vs, limit, hv, hd => by
    rw [Value.depthMembers] at hd
    rw [ofMembers, toMembers, toValue_ofValue hv.1 (by omega), toMembers_ofMembers hv.2 (by omega)]
    rfl

end

theorem natBelow?_ofValue {i bound : Nat} (h : i < bound) :
    (ofValue (.int i)).natBelow? bound = some i := by
  have hbounds : 0 ≤ (i : Int) ∧ (i : Int) < bound := by omega
  rw [Value.int, ofValue, natBelow?, if_pos hbounds, Int.toNat_natCast]

theorem object?_ofValue {members : Entries Value} {limit : Nat}
    (hv : (Value.object members).Distinct) (hd : (Value.object members).depth ≤ limit) :
    (ofValue (.object members)).object? limit = some members := by
  have hread := toValue_ofValue hv hd
  rw [ofValue] at hread
  rw [ofValue, object?, hread]
  rfl

/-- A list is read back if its items are. -/
theorem list?_ofItems {α : Type} {read : Tree → Option α} {write : α → Value} {as : List α}
    (h : ∀ a ∈ as, read (ofValue (write a)) = some a) :
    list? read (ofValue (.array (as.map write))) = some as := by
  rw [ofValue, list?, ofItems_eq_map]
  induction as with
  | nil => rfl
  | cons a as ih =>
    obtain ⟨ha, has⟩ := List.forall_mem_cons.1 h
    rw [List.map_cons, List.map_cons, List.mapM_cons, ha, ih has]
    rfl

theorem distinctMembers_ofMembers {known : List String} (closed : Bool) :
    ∀ (members : Entries Value) (seen : Entries Tree), (∀ k ∈ Entries.keys members, k ∈ known) →
      (Entries.keys seen ++ Entries.keys members).Nodup →
      distinctMembers known closed seen (ofMembers members) =
        some (seen ++ members.map fun e => (e.1, ofValue e.2))
  | [], seen, _, _ => by rw [ofMembers, distinctMembers, List.map_nil, List.append_nil]
  | (k, v) :: members, seen, hknown, hnodup => by
    have hfresh : k ∉ Entries.keys seen := fun hmem =>
      (List.nodup_append.1 hnodup).2.2 k hmem k List.mem_cons_self rfl
    have hcontains : Entries.contains k seen = false := by
      rw [Entries.contains, Entries.get?_eq_none_iff.2 hfresh]
      rfl
    have hrest := distinctMembers_ofMembers closed members (seen ++ [(k, ofValue v)])
      (fun k' hk' => hknown k' (List.mem_cons_of_mem _ hk')) (by simpa [Entries.keys] using hnodup)
    rw [ofMembers, distinctMembers]
    simp only [Option.bind_eq_bind, Option.bind_some, if_pos (hknown k List.mem_cons_self),
      hcontains, Bool.false_eq_true, if_false, Entries.insert_of_not_mem _ hfresh, hrest,
      List.append_assoc, List.singleton_append, List.map_cons]

/-- The members of a record whose absent fields are left out. -/
def present (fields : Entries (Option Value)) : Entries Value :=
  fields.filterMap fun e => e.2.map (e.1, ·)

theorem keys_present_sublist (fields : Entries (Option Value)) :
    (Entries.keys (present fields)).Sublist (Entries.keys fields) := by
  induction fields with
  | nil => exact .slnil
  | cons e fields ih =>
    obtain ⟨k, v⟩ := e
    cases v with
    | none => exact .cons _ ih
    | some v => exact .cons_cons _ ih

theorem get?_present {fields : Entries (Option Value)} (h : (Entries.keys fields).Nodup)
    {key : String} {v : Option Value} (hv : Entries.get? key fields = some v) :
    Entries.get? key (present fields) = v := by
  cases v with
  | some v =>
    refine Entries.get?_of_mem (h.sublist (keys_present_sublist fields)) ?_
    exact List.mem_filterMap.2 ⟨(key, some v), Entries.mem_of_get? hv, rfl⟩
  | none =>
    refine Entries.get?_eq_none_iff.2 fun hmem => ?_
    obtain ⟨e, he, rfl⟩ := List.mem_map.1 hmem
    obtain ⟨⟨k, o⟩, ho, hmap⟩ := List.mem_filterMap.1 he
    obtain ⟨v, rfl, rfl⟩ := Option.map_eq_some_iff.1 hmap
    cases hv.symm.trans (Entries.get?_of_mem h ho)

theorem depth_lt_of_present {fields : Entries (Option Value)} (key : String) {v : Value}
    (h : (key, some v) ∈ fields) : v.depth < (Value.object (present fields)).depth := by
  have hmem : (key, v) ∈ present fields := List.mem_filterMap.2 ⟨_, h, rfl⟩
  exact Nat.lt_succ_of_le (Value.depth_le_depthMembers hmem)

/-- The fields of a record are got back, each from its member or from its default. -/
theorem record?_present (fields : Entries (Option Value)) {known : List String} (h : known.Nodup)
    (hkeys : Entries.keys fields = known) (closed : Bool) :
    ∃ found, (ofValue (.object (present fields))).record? known closed = some found ∧
      ∀ {α : Type} {key : String} {v : Option Value} (default : Option α) (read : Tree → Option α),
        Entries.get? key fields = some v →
          field? found key default read = (v.map fun v => read (ofValue v)).getD default := by
  subst hkeys
  refine ⟨(present fields).map fun e => (e.1, ofValue e.2), ?_, ?_⟩
  · have hsub := keys_present_sublist fields
    rw [ofValue, record?, distinctMembers_ofMembers _ _ _ hsub.subset
      (by simpa [Entries.keys] using h.sublist hsub)]
    rfl
  · intro α key v default read hv
    rw [field?, Entries.get?_map, get?_present h hv]
    cases v <;> rfl

theorem distinctMembers_append (known : List String) (closed : Bool) (seen : Entries Tree)
    (before after : List (Option String × Tree)) :
    distinctMembers known closed seen (before ++ after) =
      (distinctMembers known closed seen before).bind
        fun found => distinctMembers known closed found after := by
  induction before generalizing seen with
  | nil => rfl
  | cons e before ih =>
    obtain ⟨key, tree⟩ := e
    cases key with
    | none => rfl
    | some key =>
      simp only [List.cons_append, distinctMembers, Option.bind_eq_bind, Option.bind_some]
      split
      · split
        · rfl
        · exact ih _
      · split
        · rfl
        · exact ih seen

/-- Members of other keys are taken in alike, whatever is there already for a key. -/
theorem distinctMembers_rel {key : String} (known : List String) (closed : Bool)
    {members : List (Option String × Tree)} (hkey : ∀ e ∈ members, e.1 ≠ some key)
    {seen seen' : Entries Tree}
    (hseen : ∀ other, other ≠ key → Entries.get? other seen = Entries.get? other seen') :
    Option.Rel
      (fun found found' =>
        (∀ other, other ≠ key → Entries.get? other found = Entries.get? other found') ∧
          Entries.get? key found = Entries.get? key seen ∧
          Entries.get? key found' = Entries.get? key seen')
      (distinctMembers known closed seen members) (distinctMembers known closed seen' members) := by
  induction members generalizing seen seen' with
  | nil => exact .some ⟨hseen, rfl, rfl⟩
  | cons e members ih =>
    obtain ⟨name, tree⟩ := e
    obtain ⟨hname, hlater⟩ := List.forall_mem_cons.1 hkey
    cases name with
    | none => exact .none
    | some name =>
      have hne : name ≠ key := fun h => hname (congrArg some h)
      have hcontains : Entries.contains name seen' = Entries.contains name seen := by
        rw [Entries.contains, Entries.contains, hseen name hne]
      simp only [distinctMembers, Option.bind_eq_bind, Option.bind_some, hcontains]
      split
      · split
        · exact .none
        · have hinsert : ∀ other, other ≠ key →
              Entries.get? other (Entries.insert name tree seen) =
                Entries.get? other (Entries.insert name tree seen') := fun other hother => by
            rw [Entries.get?_insert, Entries.get?_insert, hseen other hother]
          simpa only [Entries.get?_insert, if_neg (Ne.symm hne)] using ih hlater hinsert
      · split
        · exact .none
        · exact ih hlater hseen

/-- A member more changes a record at its own key only. -/
theorem record?_member {key : String} {known : List String} (hknown : key ∈ known) (closed : Bool)
    {before after : List (Option String × Tree)} (hbefore : ∀ e ∈ before, e.1 ≠ some key)
    (hafter : ∀ e ∈ after, e.1 ≠ some key) (tree : Tree) :
    Option.Rel
      (fun found found' =>
        (∀ other, other ≠ key → Entries.get? other found = Entries.get? other found') ∧
          Entries.get? key found = some tree ∧ Entries.get? key found' = none)
      ((object (before ++ (some key, tree) :: after)).record? known closed)
      ((object (before ++ after)).record? known closed) := by
  have hempty := distinctMembers_rel known closed hbefore
    fun other _ => Eq.refl (Entries.get? other [])
  rw [record?, record?, distinctMembers_append, distinctMembers_append]
  cases hfound : distinctMembers known closed [] before with
  | none => exact .none
  | some found =>
    rw [hfound] at hempty
    obtain ⟨-, hnone, -⟩ := Option.rel_some_some.1 hempty
    have hfresh : Entries.contains key found = false := by
      rw [Entries.contains, hnone]
      rfl
    simp only [Option.bind_some, distinctMembers, Option.bind_eq_bind, if_pos hknown, hfresh,
      Bool.false_eq_true, if_false]
    have hinsert : ∀ other, other ≠ key →
        Entries.get? other (Entries.insert key tree found) = Entries.get? other found :=
      fun other hother => by rw [Entries.get?_insert, if_neg hother]
    have hrest := distinctMembers_rel known closed hafter hinsert
    rw [Entries.get?_insert, if_pos rfl, hnone] at hrest
    exact hrest

theorem field?_congr {α : Type} {fields fields' : Entries Tree} {key : String}
    (h : Entries.get? key fields = Entries.get? key fields') (default : Option α)
    (read : Tree → Option α) :
    field? fields key default read = field? fields' key default read := by
  rw [field?, field?, h]

theorem parse_of_scan (tokens : List Token) {text : String} {tree : Tree}
    (hscan : Token.scan text.toList = some tokens) (h : ofTokens tokens = some tree) :
    parse text = some tree := by
  rw [parse, hscan, Option.bind_some, h]

end Tree

end GraphQL.Json
