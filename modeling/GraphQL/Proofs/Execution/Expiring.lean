import GraphQL.Proofs.Execution.Runs

/-!
Deadlines that pass while executions are under way.

The time never goes back, so a deadline that has passed stays so (`State.isExpired_of_reaches`). If
it is ahead at the end, or had passed at the beginning, it is so all the time between.
-/

set_option autoImplicit false

namespace GraphQL

open Json

/-- Goes on wherever it is possible first, and every step takes some time. -/
def Execution.Schedule.ticking : Schedule Unit where
  lapse _ _ := 1
  choose _ _ := none

namespace ContextStore

variable {ref : ContextRef} {store store' : ContextStore}

theorem isExpired_read_iff : (store.read ref).isExpired = true ↔
    ∃ deadline, ref.deadline = some deadline ∧ deadline ≤ store.now := by
  cases hd : ref.deadline with
  | none => simp [read, Context.isExpired, hd]
  | some deadline => by_cases hle : deadline ≤ store.now <;> simp [read, Context.isExpired, hd, hle]

theorem isExpired_mono (hle : store.now ≤ store'.now)
    (h : (store.read ref).isExpired = true) : (store'.read ref).isExpired = true := by
  obtain ⟨deadline, hd, hpast⟩ := isExpired_read_iff.1 h
  exact isExpired_read_iff.2 ⟨deadline, hd, Nat.le_trans hpast hle⟩

/-- What a reference shows is told by the entries and by whether its deadline has passed. -/
theorem read_eq_of_isExpired_eq (hcontexts : store.contexts = store'.contexts)
    (h : (store.read ref).isExpired = (store'.read ref).isExpired) :
    store.read ref = store'.read ref := by
  have hentries : (store.read ref).entries = (store'.read ref).entries := by
    simp only [read, entries, hcontexts]
  refine Context.ext hentries ?_
  cases hd : ref.deadline with
  | none => simp [read, hd]
  | some deadline =>
    have hpassed : deadline ≤ store.now ↔ deadline ≤ store'.now := by
      rw [Bool.eq_iff_iff] at h
      simpa [isExpired_read_iff, hd] using h
    simp only [read, hd, Option.map_some, hpassed]

end ContextStore

namespace Execution.State

variable {st st' last : State} {ref : ContextRef}

theorem Move.now_eq {number : Nat} {run : Run} {p : Position} {t u : Task} {es : List Event}
    {change : LineChange} {contexts : ContextStore}
    (h : Move st number run p t u es change contexts) : contexts.now = st.contexts.now := by
  cases h <;> rfl

theorem now_le_of_reaches (h : Reaches st last) : st.contexts.now ≤ last.contexts.now := by
  induction h with
  | refl st => exact Nat.le_refl _
  | @head st st' last p ha _ ih =>
    obtain ⟨_, _, _, _, _, _, _, _, -, -, -, hm, rfl⟩ := advance_cases ha
    exact hm.now_eq ▸ ih
  | wait time _ ih => exact Nat.le_trans (Nat.le_add_right _ time) ih

/-- A deadline that has passed stays so. -/
theorem isExpired_of_reaches (h : Reaches st last)
    (he : (st.contexts.read ref).isExpired = true) : (last.contexts.read ref).isExpired = true :=
  ContextStore.isExpired_mono (now_le_of_reaches h) he

/-- If it stands with a deadline in the end as in the beginning, it always did. -/
theorem isExpired_eq_of_between (h : Between st last st')
    (he : (last.contexts.read ref).isExpired = (st.contexts.read ref).isExpired) :
    (st'.contexts.read ref).isExpired = (st.contexts.read ref).isExpired := by
  cases hst : (st.contexts.read ref).isExpired with
  | true => exact isExpired_of_reaches h.1 hst
  | false =>
    by_contra hst'
    have hlast := isExpired_of_reaches h.2 (by simpa using hst')
    exact absurd (he.symm.trans hlast) (by simp [hst])

section

variable {Memory : Type} {schedule : Schedule Memory}

theorem now_of_step {memory memory' : Memory} (h : st.step schedule memory = some (st', memory')) :
    st'.contexts.now = st.contexts.now + schedule.lapse memory st := by
  obtain ⟨p, hp⟩ := advance_of_step h
  obtain ⟨_, _, _, _, _, _, _, _, -, -, -, hm, rfl⟩ := advance_cases hp
  exact hm.now_eq

/-- Under a schedule that lets no time pass none does. -/
theorem now_run (hlapse : ∀ memory st, schedule.lapse memory st = 0) (memory : Memory)
    (st : State) : (st.run schedule memory).contexts.now = st.contexts.now := by
  fun_induction State.run schedule memory st with
  | case1 memory st next memory' hstep ih => rw [ih, now_of_step hstep, hlapse, Nat.add_zero]
  | case2 => rfl

end

end Execution.State

end GraphQL
