import GraphQL.Context

/-!
Contexts that are shared, and the time.

A reference names the entries of a context in a store: whoever holds a copy of it sees the changes
that others make, but each copy has a deadline of its own. A deadline has passed once the time has
come to it, so the same reference may show one that is ahead and later one that has passed.
-/

set_option autoImplicit false

namespace GraphQL

open Json

structure ContextRef where
  id : Nat
  /-- The time from which on the deadline has passed. -/
  deadline : Option Nat
  deriving DecidableEq, Repr

/-- What a new context is made from: its entries, and how long it is until its deadline. -/
structure ContextParts where
  entries : Entries Value
  timeLeft : Option Nat
  deriving Repr

namespace ContextParts

def new : ContextParts := ⟨[], none⟩

def isEmpty (c : ContextParts) : Bool := c.entries.isEmpty

end ContextParts

/-- The entries of all contexts, of which the newest comes last, at a time. -/
structure ContextStore where
  contexts : List (Entries Value)
  now : Nat
  deriving Repr

namespace ContextStore

def empty : ContextStore := ⟨[], 0⟩

/-- A reference to a new context. -/
def create (c : ContextParts) (store : ContextStore) : ContextRef × ContextStore :=
  (⟨store.contexts.length, c.timeLeft.map (store.now + ·)⟩,
    { store with contexts := store.contexts ++ [c.entries] })

def entries (ref : ContextRef) (store : ContextStore) : Entries Value :=
  store.contexts[ref.id]?.getD []

/-- What a reference shows at this time. -/
def read (ref : ContextRef) (store : ContextStore) : Context where
  entries := store.entries ref
  deadline := ref.deadline.map fun deadline => if deadline ≤ store.now then .passed else .ahead

/-- What a new context is made from that holds the same and has the same deadline. -/
def parts (ref : ContextRef) (store : ContextStore) : ContextParts where
  entries := store.entries ref
  timeLeft := ref.deadline.map (· - store.now)

def write (ref : ContextRef) (entries : Entries Value) (store : ContextStore) : ContextStore :=
  { store with contexts := store.contexts.set ref.id entries }

/-- The store when some more time has passed. -/
def elapse (time : Nat) (store : ContextStore) : ContextStore :=
  { store with now := store.now + time }

/-- Runs an operation on the context behind a reference. -/
def update {α : Type} (ref : ContextRef) (f : Context → α × Context) (store : ContextStore) :
    α × ContextStore :=
  let (a, c) := f (store.read ref)
  (a, store.write ref c.entries)

theorem deadline_read (ref : ContextRef) (store : ContextStore) :
    (store.read ref).deadline =
      (store.parts ref).timeLeft.map fun left => if left = 0 then .passed else .ahead := by
  simp only [read, parts, Option.map_map, Function.comp_def, Nat.sub_eq_zero_iff_le]

/-- What a reference shows depends on what is left of its time only. -/
theorem read_congr {ref ref' : ContextRef} {store store' : ContextStore}
    (h : store.parts ref = store'.parts ref') : store.read ref = store'.read ref' := by
  have hentries : (store.read ref).entries = (store'.read ref').entries :=
    (congrArg ContextParts.entries h :)
  have hdeadline : (store.read ref).deadline = (store'.read ref').deadline := by
    rw [deadline_read, deadline_read, h]
  exact Context.ext hentries hdeadline

theorem parts_create (c : ContextParts) (store : ContextStore) :
    (store.create c).2.parts (store.create c).1 = c := by
  obtain ⟨entries, timeLeft⟩ := c
  cases timeLeft <;> simp [create, parts, ContextStore.entries]

/-- After some time a context that nobody changes is what it was, with so much less time left. -/
theorem parts_eq_of_now {store store' : ContextStore} {ref : ContextRef} {time : Nat}
    (hentries : store'.entries ref = store.entries ref) (hnow : store'.now = store.now + time) :
    store'.parts ref = ⟨(store.parts ref).entries, (store.parts ref).timeLeft.map (· - time)⟩ := by
  simp [parts, hentries, hnow, Function.comp_def, Nat.sub_sub]

theorem parts_write_of_ne (ref other : ContextRef) (entries : Entries Value)
    (store : ContextStore) (h : other.id ≠ ref.id) :
    (store.write ref entries).parts other = store.parts other := by
  simp [write, parts, ContextStore.entries, List.getElem?_set_ne (Ne.symm h)]

theorem parts_write (ref other : ContextRef) (entries : Entries Value) (store : ContextStore)
    (h : other.id = ref.id) (hr : ref.id < store.contexts.length) :
    (store.write ref entries).parts other = ⟨entries, (store.parts other).timeLeft⟩ := by
  simp [write, parts, ContextStore.entries, h, hr]

end ContextStore

end GraphQL
