import GraphQL.Execution.State

/-!
Running executions to their end under a schedule, which chooses the position that goes on next, and
how much time passes before.

Whatever a schedule chooses, a run takes single steps only (`State.reaches_run`), it ends, and where
it ends nothing more can happen (`State.advance_run`).
-/

set_option autoImplicit false

namespace GraphQL.Execution

/-- Says how things go on, from what it remembers of its earlier choices. -/
structure Schedule (Memory : Type) where
  /-- How much time passes before the next step. -/
  lapse : Memory → State → Nat
  /-- Chooses a position for the next step, after that time. -/
  choose : Memory → State → Option (Position × Memory)

/-- Always goes on at the first position at which anything can happen, and at once. -/
def Schedule.first : Schedule Unit := ⟨fun _ _ => 0, fun _ _ => none⟩

namespace State

variable {Memory : Type}

/-- Goes on at the first position at which anything can happen. -/
def advanceFirst (st : State) : Option State := st.positions.findSome? st.advance

/-- Goes on at the position that a schedule chooses. -/
def advanceChosen (schedule : Schedule Memory) (memory : Memory) (st : State) :
    Option (State × Memory) := do
  let (p, memory) ← schedule.choose memory st
  return (← st.advance p, memory)

/-- Goes on at the chosen position, or at the first one if there is nothing to be done at that. -/
def proceed (schedule : Schedule Memory) (memory : Memory) (st : State) :
    Option (State × Memory) :=
  match st.advanceChosen schedule memory with
  | some next => some next
  | none => st.advanceFirst.map (·, memory)

/-- Lets time pass and goes on. -/
def step (schedule : Schedule Memory) (memory : Memory) (st : State) : Option (State × Memory) :=
  (st.elapse (schedule.lapse memory st)).proceed schedule memory

theorem advance_of_proceed {schedule : Schedule Memory} {memory memory' : Memory} {st st' : State}
    (h : st.proceed schedule memory = some (st', memory')) : ∃ p, st.advance p = some st' := by
  unfold proceed at h
  split at h
  · next next hc =>
    cases h
    simp only [advanceChosen, Option.bind_eq_bind, Option.pure_def, Option.bind_eq_some_iff,
      Option.some.injEq] at hc
    obtain ⟨⟨p, _⟩, _, a, ha, he⟩ := hc
    cases he
    exact ⟨p, ha⟩
  · simp only [Option.map_eq_some_iff] at h
    obtain ⟨a, ha, he⟩ := h
    cases he
    obtain ⟨p, _, hp⟩ := List.exists_of_findSome?_eq_some ha
    exact ⟨p, hp⟩

theorem advance_of_step {schedule : Schedule Memory} {memory memory' : Memory} {st st' : State}
    (h : st.step schedule memory = some (st', memory')) :
    ∃ p, (st.elapse (schedule.lapse memory st)).advance p = some st' := advance_of_proceed h

theorem advance_of_step_eq_none {schedule : Schedule Memory} {memory : Memory} {st : State}
    (h : st.step schedule memory = none) {p : Position} (hp : p ∈ st.positions) :
    st.advance p = none := by
  rw [← advance_elapse_eq_none_iff (schedule.lapse memory st)]
  unfold step proceed at h
  split at h
  · simp at h
  · simp only [Option.map_eq_none_iff] at h
    exact List.findSome?_eq_none_iff.1 h p hp

/-- Goes on until nothing can happen any more. -/
def run (schedule : Schedule Memory) (memory : Memory) (st : State) : State :=
  match _h : st.step schedule memory with
  | some (st', memory) => run schedule memory st'
  | none => st
termination_by st
decreasing_by
  obtain ⟨p, hp⟩ := advance_of_step _h
  have hstep : Task.StepAny (st.elapse _).tasks st'.tasks := stepAny_advance hp
  exact hstep

theorem reaches_run (schedule : Schedule Memory) (memory : Memory) (st : State) :
    Reaches st (st.run schedule memory) := by
  fun_induction run schedule memory st with
  | case1 memory st st' memory' h ih =>
    obtain ⟨p, hp⟩ := advance_of_step h
    exact .wait _ (.head p hp ih)
  | case2 memory st _ => exact .refl st

theorem advance_run (schedule : Schedule Memory) (memory : Memory) (st : State) :
    ∀ p ∈ (st.run schedule memory).positions, (st.run schedule memory).advance p = none := by
  fun_induction run schedule memory st with
  | case1 memory st st' memory' h ih => exact ih
  | case2 memory st h => exact fun p hp => advance_of_step_eq_none h hp

end State

end GraphQL.Execution
