import GraphQL.Context
import GraphQL.Proofs.Entries

/-!
What operations on a context do to it when they fail.

Reading and changing an entry that cannot be read leave the context alone, and so does inserting a
value that cannot be written. Inserting over an entry that cannot be read fails only after the entry
was replaced, so this is the one failure that shows (`Context.after_eq_iff`). A run of calls without
it comes to the same as the calls in it that succeed (`Context.failing_calls_keep_iff`).
-/

set_option autoImplicit false

namespace GraphQL

open Json

theorem Entries.insert_of_get? {α : Type} {key : String} {a : α} {m : Entries α}
    (h : get? key m = some a) : insert key a m = m := by
  induction m with
  | nil => cases h
  | cons e m ih =>
    obtain ⟨k, b⟩ := e
    rw [get?] at h
    rw [insert]
    split
    · next hk =>
      rw [if_pos hk] at h
      rw [Option.some.inj h]
    · next hk =>
      rw [if_neg hk] at h
      rw [ih h]

namespace Context

/-- A call of one of the operations, at a type of its own. -/
inductive Call where
  | get {α : Type} (codec : Codec α) (key : String)
  | insert {α : Type} (codec : Codec α) (key : String) (value : α)
  | upsert {α : Type} (codec : Codec α) (key : String) (update : α → α) (default : α)

namespace Call

def key : Call → String
  | get _ key => key
  | insert _ key _ => key
  | upsert _ key _ _ => key

/-- What a call answers, apart from the entries that it reads, and the context after it. -/
def run : Call → Context → Except String Unit × Context
  | get codec key, c => ((c.get codec key).map fun _ => (), c)
  | insert codec key value, c =>
    let (answer, c) := c.insert codec key value
    (answer.map fun _ => (), c)
  | upsert codec key update default, c => c.upsert codec key update default

def Fails (call : Call) (c : Context) : Prop := ∃ message, (call.run c).1 = .error message

def after (call : Call) (c : Context) : Context := (call.run c).2

/-- The call inserts a value over a different entry, which cannot be read at its type. -/
def Overwrites : Call → Context → Prop
  | insert codec key value, c => ∃ old new message, Entries.get? key c.entries = some old ∧
      codec.decode old = .error message ∧ codec.encode value = .ok new ∧ old ≠ new
  | _, _ => False

end Call

section

variable {α : Type} {codec : Codec α} {key message : String} {value default : α} {update : α → α}
  {c : Context}

theorem get_eq_error_iff : c.get codec key = .error message ↔
    ∃ old, Entries.get? key c.entries = some old ∧ codec.decode old = .error message := by
  unfold get
  cases Entries.get? key c.entries with
  | none => simp
  | some old => cases h : codec.decode old <;> simp [Except.map, h]

theorem upsert_of_error (h : (c.upsert codec key update default).1 = .error message) :
    (c.upsert codec key update default).2 = c := by
  unfold upsert at h ⊢
  cases hget : c.get codec key with
  | error e => rfl
  | ok current =>
    cases hnew : codec.encode (update (current.getD default)) with
    | error e => simp only [hnew]
    | ok new => simp [hget, hnew] at h

/-- The value cannot be written, or the entry that it has replaced cannot be read. -/
theorem insert_of_error (h : (c.insert codec key value).1 = .error message) :
    codec.encode value = .error message ∧ (c.insert codec key value).2 = c ∨
      ∃ old new, Entries.get? key c.entries = some old ∧ codec.decode old = .error message ∧
        codec.encode value = .ok new ∧
        (c.insert codec key value).2 = { c with entries := Entries.insert key new c.entries } := by
  unfold insert at h ⊢
  cases hnew : codec.encode value with
  | error e =>
    simp only [hnew] at h
    exact .inl ⟨congrArg _ (Except.error.inj h), rfl⟩
  | ok new =>
    simp only [hnew] at h
    obtain ⟨old, hold, hdecode⟩ := get_eq_error_iff.1 h
    exact .inr ⟨old, new, hold, hdecode, rfl, rfl⟩

theorem insert_eq_self_iff (h : (c.insert codec key value).1 = .error message) :
    (c.insert codec key value).2 = c ↔ ¬ (Call.insert codec key value).Overwrites c := by
  rcases insert_of_error h with ⟨hencode, hkept⟩ | ⟨old, new, hold, hdecode, hencode, hafter⟩
  · refine iff_of_true hkept fun ⟨_, _, _, _, _, hnew, _⟩ => ?_
    rw [hencode] at hnew
    cases hnew
  · rw [hafter]
    constructor
    · rintro hsame ⟨old', new', _, hold', _, hnew', hne⟩
      rw [hold] at hold'
      rw [hencode] at hnew'
      cases hold'
      cases hnew'
      have hentries : Entries.insert key new c.entries = c.entries := congrArg entries hsame
      have hget := Entries.get?_insert key key new c.entries
      rw [if_pos rfl, hentries, hold] at hget
      exact hne (Option.some.inj hget)
    · intro hnot
      have hsame : old = new := by_contra fun hne =>
        hnot ⟨old, new, message, hold, hdecode, hencode, hne⟩
      rw [← hsame, Entries.insert_of_get? hold]

end

section

variable {call : Call} {c : Context}

/-- A failing call keeps the context unless it overwrites an entry. -/
theorem after_eq_iff (h : call.Fails c) : call.after c = c ↔ ¬ call.Overwrites c := by
  obtain ⟨message, h⟩ := h
  cases call with
  | get codec key => exact iff_of_true rfl id
  | insert codec key value =>
    cases hanswer : (c.insert codec key value).1 with
    | error m => exact insert_eq_self_iff hanswer
    | ok answer => simp [Call.run, hanswer, Except.map] at h
  | upsert codec key update default => exact iff_of_true (upsert_of_error h) id

/-- A call changes no entry but the one that it is about. -/
theorem get?_after {other : String} (h : other ≠ call.key) :
    Entries.get? other (call.after c).entries = Entries.get? other c.entries := by
  have hinsert : ∀ v, Entries.get? other (Entries.insert call.key v c.entries) =
      Entries.get? other c.entries := fun v => by rw [Entries.get?_insert, if_neg h]
  cases call with
  | get codec key => rfl
  | insert codec key value =>
    show Entries.get? other (c.insert codec key value).2.entries = _
    unfold insert
    split
    · exact hinsert _
    · rfl
  | upsert codec key update default =>
    show Entries.get? other (c.upsert codec key update default).2.entries = _
    unfold upsert
    split
    · split
      · exact hinsert _
      · rfl
    · rfl

/-- The context after several calls. -/
def afterAll (c : Context) : List Call → Context
  | [] => c
  | call :: calls => (call.after c).afterAll calls

/-- The calls that succeed when all are made one after the other. -/
def succeeding (c : Context) : List Call → List Call
  | [] => []
  | call :: calls =>
    match (call.run c).1 with
    | .ok () => call :: (call.after c).succeeding calls
    | .error _ => (call.after c).succeeding calls

/-- Without an overwritten entry the calls that fail can be left out. -/
theorem afterAll_succeeding {calls : List Call} (h : ∀ before call later,
      calls = before ++ call :: later → ¬ call.Overwrites (c.afterAll before)) :
    c.afterAll (c.succeeding calls) = c.afterAll calls := by
  induction calls generalizing c with
  | nil => rfl
  | cons call calls ih =>
    have hrest := ih (c := call.after c) fun before call' later heq =>
      h (call :: before) call' later (congrArg (call :: ·) heq)
    cases hrun : (call.run c).1 with
    | ok answer => rw [succeeding, hrun, afterAll, afterAll, hrest]
    | error message =>
      have hkept : call.after c = c := (after_eq_iff ⟨message, hrun⟩).2 (h [] call calls rfl)
      rw [succeeding, hrun, afterAll, ← hrest, hkept]

/-- In every run of calls, one that fails keeps all entries just if it does not insert over a
different entry that cannot be read, and it keeps all other entries in any case. If there is no such
insertion, the run comes to the same without the calls that fail. -/
theorem failing_calls_keep_iff (c : Context) (calls : List Call) :
    (∀ before call later, calls = before ++ call :: later → call.Fails (c.afterAll before) →
      (call.after (c.afterAll before) = c.afterAll before ↔
        ¬ call.Overwrites (c.afterAll before)) ∧
      ∀ key, key ≠ call.key → Entries.get? key (call.after (c.afterAll before)).entries =
        Entries.get? key (c.afterAll before).entries) ∧
    ((∀ before call later, calls = before ++ call :: later →
        ¬ call.Overwrites (c.afterAll before)) →
      c.afterAll (c.succeeding calls) = c.afterAll calls) :=
  ⟨fun _ _ _ _ h => ⟨after_eq_iff h, fun _ hkey => get?_after hkey⟩, afterAll_succeeding⟩

/-- Counting in an entry that holds a text. -/
def miscounting : List Call := [.insert .string "key" "text", .upsert .int "key" (· + 1) 0]

theorem failing_calls_keep_iff_miscounting :
    let c := new.afterAll [.insert .string "key" "text"]
    let change : Call := .upsert .int "key" (· + 1) 0
    let call : Call := .insert .int "key" 1
    change.Fails c ∧ change.after c = c ∧ call.Fails c ∧ call.after c ≠ c ∧
      new.afterAll (new.succeeding miscounting) = new.afterAll miscounting := by
  intro c change call
  have hchange : change.Fails c := ⟨_, rfl⟩
  have hcall : call.Fails c := ⟨_, rfl⟩
  have hoverwrites : call.Overwrites c := ⟨_, _, _, rfl, rfl, rfl, by simp [Value.int]⟩
  obtain ⟨hkeeps, hrun⟩ := failing_calls_keep_iff new miscounting
  have hkept := (hkeeps [.insert .string "key" "text"] change [] rfl hchange).1.2 id
  have hlost := ((failing_calls_keep_iff new [.insert .string "key" "text", call]).1
    [.insert .string "key" "text"] call [] rfl hcall).1
  refine ⟨hchange, hkept, hcall, fun hsame => hlost.1 hsame hoverwrites, hrun ?_⟩
  rintro (_ | ⟨_, _ | ⟨_, before⟩⟩) call' later heq
  · cases heq
    rintro ⟨_, _, _, hnone, _⟩
    cases hnone
  · cases heq
    exact id
  · simp [miscounting] at heq

/-- A failing call may change an entry: the number is inserted, and then the text that it has
replaced is read as a number. -/
theorem not_failing_calls_keep :
    ¬ ∀ (c : Context) (calls : List Call) (call : Call), call.Fails (c.afterAll calls) →
      (call.after (c.afterAll calls)).entries = (c.afterAll calls).entries := by
  intro h
  have hkept := h new [.insert .string "key" "text"] (.insert .int "key" 1) ⟨_, rfl⟩
  have hget : some (Value.int 1) = some (Value.string "text") := congrArg (Entries.get? "key") hkept
  cases hget

end

end Context

end GraphQL
