import GraphQL.Executor
import GraphQL.Proofs.Execution.Expiring

/-!
Executions that are under way alone, in one store of contexts and in another.

An execution goes on in the same way wherever its context is stored (`State.Alike.run`), provided
that the schedule does not look at the store. The schedule that executions follow does not
(`Schedule.blind_rota`).
-/

set_option autoImplicit false

namespace GraphQL

open Json

namespace Execution

/-- An execution that is under way alone, in one store of contexts and in another. What its context
holds, and what is left of its time, is the same in both. -/
inductive State.Alike : State → State → Prop where
  | intro (run : Run) (ref : ContextRef) (trace : List (Nat × Event))
      {store store' : ContextStore} :
      store.parts run.context = store'.parts ref → run.context.id < store.contexts.length →
      ref.id < store'.contexts.length →
      Alike ⟨[run], store, trace⟩ ⟨[{ run with context := ref }], store', trace⟩

namespace State.Alike

variable {st st' : State} {number : Nat}

theorem modifyRun {f : Run → Run}
    (hf : ∀ run ref, f { run with context := ref } = { f run with context := ref })
    (h : Alike st st') : Alike (st.modifyRun number f) (st'.modifyRun number f) := by
  obtain ⟨run, ref, trace, hparts, hid, hid'⟩ := h
  cases number with
  | zero =>
    have hcontext : (f run).context = run.context := 
      (congrArg Run.context (hf run run.context) :)
    have halike := Alike.intro (f run) ref trace (hcontext ▸ hparts) (hcontext ▸ hid) hid'
    rwa [← hf] at halike
  | succ number =>
    simpa [State.modifyRun] using Alike.intro run ref trace hparts hid hid'

theorem put {path : List Nat} (u : Task) (h : Alike st st') :
    Alike (st.put number path u) (st'.put number path u) := h.modifyRun fun _ _ => rfl

theorem joinLine (p : Position) (h : Alike st st') :
    Alike (st.joinLine number p) (st'.joinLine number p) := h.modifyRun fun _ _ => rfl

theorem leaveLine (p : Position) (h : Alike st st') :
    Alike (st.leaveLine number p) (st'.leaveLine number p) := h.modifyRun fun _ _ => rfl

theorem note (number : Nat) (e : Event) (h : Alike st st') :
    Alike (st.note number e) (st'.note number e) := by
  obtain ⟨run, ref, trace, hparts, hid, hid'⟩ := h
  exact .intro run ref ((number, e) :: trace) hparts hid hid'

theorem elapse (time : Nat) (h : Alike st st') : Alike (st.elapse time) (st'.elapse time) := by
  obtain ⟨run, ref, trace, hparts, hid, hid'⟩ := h
  have hleft (ref : ContextRef) (store : ContextStore) : (store.elapse time).parts ref =
      ⟨(store.parts ref).entries, (store.parts ref).timeLeft.map (· - time)⟩ :=
    ContextStore.parts_eq_of_now rfl rfl
  exact .intro run ref trace ((hleft _ _).trans (hparts ▸ (hleft _ _).symm)) hid hid'

theorem exists_run (h : Alike st st') :
    ∃ run ref, st.runs[0]? = some run ∧ st'.runs[0]? = some { run with context := ref } ∧
      st.contexts.parts run.context = st'.contexts.parts ref := by
  obtain ⟨run, ref, trace, hparts, hid, hid'⟩ := h
  exact ⟨run, ref, rfl, rfl, hparts⟩

theorem getElem?_runs (h : Alike st st') (number : Nat) :
    st.runs[number]? = none ∧ st'.runs[number]? = none ∨
      ∃ run ref, st.runs[number]? = some run ∧
        st'.runs[number]? = some { run with context := ref } ∧
        st.contexts.read run.context = st'.contexts.read ref := by
  cases number with
  | zero =>
    obtain ⟨run, ref, hr, hr', hparts⟩ := h.exists_run
    exact .inr ⟨run, ref, hr, hr', ContextStore.read_congr hparts⟩
  | succ number =>
    cases h
    exact .inl ⟨rfl, rfl⟩

theorem positions_eq (h : Alike st st') : st.positions = st'.positions := by
  cases h
  rfl

theorem output_eq (h : Alike st st') (number : Nat) : st.output number = st'.output number := by
  cases h
  cases number <;> rfl

theorem invocations_eq (h : Alike st st') : st.invocations = st'.invocations := by
  cases h
  rfl

theorem isAborted_eq (h : Alike st st') (run : Run) (ref : ContextRef) :
    st.isAborted number run = st'.isAborted number { run with context := ref } := by
  cases h
  rfl

theorem refusal?_eq (h : Alike st st') {run : Run} {ref : ContextRef}
    (hread : st.contexts.read run.context = st'.contexts.read ref) :
    st.refusal? number run = st'.refusal? number { run with context := ref } := by
  rw [refusal?, refusal?, h.isAborted_eq run ref, hread]

theorem taskAt?_eq (h : Alike st st') (p : Position) : st.taskAt? p = st'.taskAt? p := by
  cases h
  unfold taskAt?
  split
  · rfl
  · next number path _ =>
    cases number <;> rfl

theorem answersNext_eq (h : Alike st st') (p : Position) :
    st.answersNext p = st'.answersNext p := by
  unfold answersNext
  rw [h.taskAt?_eq]

theorem work {path : List Nat} {run : Run} {ref : ContextRef} (c : Call) (next : Reply → Task)
    (h : Alike st st') (hr : st.runs[number]? = some run)
    (hr' : st'.runs[number]? = some { run with context := ref }) (pauses : Nat) :
    Alike (st.work number path run.context c next pauses)
      (st'.work number path ref c next pauses) := by
  cases pauses with
  | succ pauses => exact h.put _
  | zero =>
    obtain ⟨run', ref', trace, hparts, hid, hid'⟩ := h
    cases number with
    | succ number => cases hr
    | zero =>
      obtain rfl : run' = run := Option.some.inj hr
      obtain rfl : ref' = ref := congrArg Run.context (Option.some.inj hr')
      simp only [State.work, ContextStore.read_congr hparts]
      refine put _ (.intro run' ref' trace ?_ ?_ ?_)
      · rw [ContextStore.parts_write _ _ _ _ rfl hid, ContextStore.parts_write _ _ _ _ rfl hid',
          hparts]
      · simpa [ContextStore.write] using hid
      · simpa [ContextStore.write] using hid'

/-- What happens at a position is the same. -/
theorem advance (h : Alike st st') (p : Position) :
    Option.Rel Alike (st.advance p) (st'.advance p) := by
  unfold State.advance
  split
  · exact .none
  · next number path hp =>
    obtain ⟨hr, hr'⟩ | ⟨run, ref, hr, hr', hread⟩ := h.getElem?_runs number
    · rw [hr, hr']
      exact .none
    · rw [hr, hr']
      simp only [Option.bind_eq_bind, Option.bind_some]
      cases run.task.reach? path with
      | none => exact .none
      | some t =>
        simp only [Option.bind_some]
        cases t with
        | done c => exact .none
        | emit e next => exact .some ((h.put next).note number e)
        | read next =>
          rw [hread]
          exact .some (h.put _)
        | fork s children next =>
          dsimp only
          cases Task.completions? children with
          | none => exact .none
          | some cs => exact .some (h.put _)
        | call c stage next =>
          cases stage with
          | fresh => exact .some ((h.put _).joinLine p)
          | queued =>
            have hadmits : run.admits p = Run.admits p { run with context := ref } := rfl
            simp only [← hadmits, ← h.refusal?_eq hread]
            split
            · split
              · exact .some ((h.put _).leaveLine p)
              · exact .some (h.put _)
            · exact .none
          | admitted => exact .some ((h.note number _).work c next hr hr' c.resolver.pauses)
          | working pauses => exact .some (h.work c next hr hr' pauses)
          | answered r => exact .some ((h.put _).leaveLine p)

end State.Alike

/-- A schedule sees nothing of other contexts than those of the executions. -/
def Schedule.Blind {Memory : Type} (schedule : Schedule Memory) : Prop :=
  ∀ memory st st', State.Alike st st' →
    schedule.lapse memory st = schedule.lapse memory st' ∧
    schedule.choose memory st = schedule.choose memory st'

namespace Rota

variable {st st' : State}

theorem lookAtCall_eq (h : State.Alike st st') {number : Nat} {run : Run} {ref : ContextRef}
    (hread : st.contexts.read run.context = st'.contexts.read ref) (stage : Stage) (p : Position)
    (r : Rota) :
    r.lookAtCall st number run stage p =
      r.lookAtCall st' number { run with context := ref } stage p := by
  unfold lookAtCall
  simp only [← h.refusal?_eq hread]
  rfl

theorem lookAt_eq (h : State.Alike st st') (p : Position) (task : Task) (r : Rota) :
    r.lookAt st p task = r.lookAt st' p task := by
  cases task with
  | call c stage next =>
    unfold lookAt
    dsimp only
    cases p.getLast? with
    | none => rfl
    | some number =>
      simp only [Option.bind_some]
      obtain ⟨hr, hr'⟩ | ⟨run, ref, hr, hr', hread⟩ := h.getElem?_runs number
      · rw [hr, hr']
        rfl
      · rw [hr, hr']
        exact lookAtCall_eq h hread stage p r
  | _ => rfl

theorem next_eq (h : State.Alike st st') (r : Rota) : r.next st = r.next st' := by
  unfold next
  cases r.focus with
  | runs number =>
    dsimp only
    obtain ⟨hr, hr'⟩ | ⟨run, ref, hr, hr', -⟩ := h.getElem?_runs number
    · rw [hr, hr']
    · rw [hr, hr']
  | position p known =>
    cases known with
    | some task => exact lookAt_eq h p task r
    | none =>
      simp only [h.taskAt?_eq p, lookAt_eq h p _ r]
  | left p ended => rfl
  | resolvers turns =>
    simp only [takeTurn, h.answersNext_eq]

theorem choose_eq (h : State.Alike st st') : ∀ (patience : Nat) (r : Rota),
    choose st patience r = choose st' patience r
  | 0, _ => rfl
  | patience + 1, r => by
    rw [choose, choose, next_eq h r]
    split
    · rfl
    · exact choose_eq h patience _
    · rfl

end Rota

theorem Schedule.blind_rota : Schedule.rota.Blind := fun r _ _ h =>
  ⟨rfl, Rota.choose_eq h Rota.patience r⟩

namespace State.Alike

variable {st st' : State} {Memory : Type} {schedule : Schedule Memory}

theorem advanceFirst (h : Alike st st') : Option.Rel Alike st.advanceFirst st'.advanceFirst := by
  rw [State.advanceFirst, State.advanceFirst, h.positions_eq]
  induction st'.positions with
  | nil => exact .none
  | cons p ps ih =>
    rw [List.findSome?_cons, List.findSome?_cons]
    match st.advance p, st'.advance p, h.advance p with
    | _, _, .none => exact ih
    | _, _, .some hp => exact .some hp

theorem proceed (hblind : schedule.Blind) (memory : Memory) (h : Alike st st') :
    Option.Rel (fun next next' => Alike next.1 next'.1 ∧ next.2 = next'.2)
      (st.proceed schedule memory) (st'.proceed schedule memory) := by
  have hchosen : Option.Rel (fun next next' => Alike next.1 next'.1 ∧ next.2 = next'.2)
      (st.advanceChosen schedule memory) (st'.advanceChosen schedule memory) := by
    rw [State.advanceChosen, State.advanceChosen, (hblind memory st st' h).2]
    cases schedule.choose memory st' with
    | none => exact .none
    | some choice =>
      have hadvance := h.advance choice.1
      simp only [Option.bind_eq_bind, Option.bind_some]
      generalize st.advance choice.1 = next at hadvance ⊢
      generalize st'.advance choice.1 = next' at hadvance ⊢
      cases hadvance with
      | none => exact .none
      | some hp => exact .some ⟨hp, rfl⟩
  rw [State.proceed, State.proceed]
  generalize st.advanceChosen schedule memory = next at hchosen ⊢
  generalize st'.advanceChosen schedule memory = next' at hchosen ⊢
  cases hchosen with
  | some hnext => exact .some hnext
  | none =>
    have hfirst := h.advanceFirst
    dsimp only
    generalize st.advanceFirst = next at hfirst ⊢
    generalize st'.advanceFirst = next' at hfirst ⊢
    cases hfirst with
    | none => exact .none
    | some hp => exact .some ⟨hp, rfl⟩

/-- Under a blind schedule the same happens, after the same time. -/
theorem step (hblind : schedule.Blind) (memory : Memory) (h : Alike st st') :
    Option.Rel (fun next next' => Alike next.1 next'.1 ∧ next.2 = next'.2)
      (st.step schedule memory) (st'.step schedule memory) := by
  rw [State.step, State.step, (hblind memory st st' h).1]
  exact (h.elapse _).proceed hblind memory

/-- The two end alike, and after the same time. -/
theorem run (hblind : schedule.Blind) (memory : Memory) (h : Alike st st') :
    Alike (st.run schedule memory) (st'.run schedule memory) ∧
      ∃ time, (st.run schedule memory).contexts.now = st.contexts.now + time ∧
        (st'.run schedule memory).contexts.now = st'.contexts.now + time := by
  induction memory, st using State.run.induct schedule generalizing st' with
  | case1 memory st next memory' hstep ih =>
    have hrel := h.step hblind memory
    rw [hstep] at hrel
    match hstep' : st'.step schedule memory, hrel with
    | some (next', _), .some ⟨hnext, heq⟩ =>
      obtain rfl := heq
      have hnow := State.now_of_step hstep
      have hnow' := State.now_of_step hstep'
      rw [← (hblind memory st st' h).1] at hnow'
      rw [State.run, hstep, State.run, hstep']
      obtain ⟨halike, time, hlast, hlast'⟩ := ih hnext
      refine ⟨halike, schedule.lapse memory st + time, hlast.trans ?_, hlast'.trans ?_⟩
      · rw [hnow, Nat.add_assoc]
      · rw [hnow', Nat.add_assoc]
  | case2 memory st hstep =>
    have hrel := h.step hblind memory
    rw [hstep] at hrel
    match hstep' : st'.step schedule memory, hrel with
    | none, _ =>
      rw [State.run, hstep, State.run, hstep']
      exact ⟨h, 0, rfl, rfl⟩

end State.Alike

end Execution

end GraphQL
